import ProblemSolving.Proofs.Search.Rounds

/-!
# What tree and graph search have explored

* `Memory.Lawful` : a memory only refuses states that it was given before.
* `Horizon.Offered` : what the offers of children do.
* `Explored` : every step out of an expanded state leads to an expanded state or to one on the
  frontier, while nothing is left out for its depth.
* `Explored.covers` : when nothing waits, every reachable state is expanded.
* `exploreFromRoot_conclusive` : so an exhausted frontier tells that there is no goal.
-/

namespace ProblemSolving

variable {σ α κ μ : Type} {δ : Type → Type}

/-! ## Memories -/

/-- What a memory knows was given to it, and it refuses only what it knows. -/
structure Memory.Lawful (memory : Memory σ μ) (knows : μ → σ → Prop) : Prop where
  initial : ∀ s t, knows (memory.initial s) t → t = s
  admits : ∀ m s, (memory.take m s).1 = true → ∀ t, knows (memory.take m s).2 t → knows m t ∨ t = s
  refuses : ∀ m s, (memory.take m s).1 = false →
    knows m s ∧ ∀ t, knows (memory.take m s).2 t → knows m t

theorem Memory.lawful_forgetful : (Memory.forgetful : Memory σ Unit).Lawful fun _ _ => False where
  initial _ _ h := h.elim
  admits _ _ _ _ h := h.elim
  refuses _ _ h := by simp [forgetful] at h

section
variable [BEq σ] [Hashable σ] {seen seen' : Std.HashSet σ} {s : σ}

theorem Memory.take_seen_eq_true (h : Memory.seen.take seen s = (true, seen')) :
    s ∉ seen ∧ seen' = seen.insert s := by
  unfold Memory.seen at h
  dsimp only at h
  split at h
  next => cases h
  next hunseen =>
    cases h
    exact ⟨fun hmem => hunseen (Std.HashSet.mem_iff_contains.1 hmem), rfl⟩

theorem Memory.take_seen_eq_false (h : Memory.seen.take seen s = (false, seen')) :
    s ∈ seen ∧ seen' = seen := by
  unfold Memory.seen at h
  dsimp only at h
  split at h
  next hknown =>
    cases h
    exact ⟨Std.HashSet.mem_iff_contains.2 hknown, rfl⟩
  next => cases h

theorem Memory.lawful_seen [LawfulBEq σ] :
    (Memory.seen : Memory σ (Std.HashSet σ)).Lawful fun seen s => s ∈ seen where
  initial s t h := by
    rcases Std.HashSet.mem_insert.1 h with hst | hempty
    · exact (eq_of_beq hst).symm
    · exact absurd hempty Std.HashSet.not_mem_emptyWithCapacity
  admits seen s h t ht := by
    rcases htake : Memory.seen.take seen s with ⟨admitted, seen'⟩
    rw [htake] at h ht
    obtain rfl : admitted = true := h
    obtain ⟨-, rfl⟩ := take_seen_eq_true htake
    rcases Std.HashSet.mem_insert.1 ht with hst | hold
    · exact .inr (eq_of_beq hst).symm
    · exact .inl hold
  refuses seen s h := by
    rcases htake : Memory.seen.take seen s with ⟨admitted, seen'⟩
    rw [htake] at h
    obtain rfl : admitted = false := h
    obtain ⟨hknown, rfl⟩ := take_seen_eq_false htake
    exact ⟨hknown, fun t ht => ht⟩

end

/-! ## Offers -/

variable [Discipline δ κ] [LawfulDiscipline δ κ]

/-- Some node on the frontier has this state. -/
def Lists (frontier : Frontier δ (Placed σ α κ)) (s : σ) : Prop :=
  ∃ n ∈ frontier.items κ, n.node.state = s

/-- What the offers of children do, for states of which those in `E` are expanded: children are
added to the frontier, and the states of all that do not lie too deep are now listed, if they are not
expanded. -/
structure Horizon.Offered (policy : TimedPolicy) (knows : μ → σ → Prop) (E : σ → Prop)
    (kids : List (Placed σ α κ)) (h h' : Horizon σ α κ μ δ) : Prop where
  sound : h'.frontier.Sound κ
  items : ∀ n ∈ h'.frontier.items κ, n ∈ h.frontier.items κ ∨ n ∈ kids
  keeps : ∀ n ∈ h.frontier.items κ, n ∈ h'.frontier.items κ
  known : ∀ s, knows h'.memory s → E s ∨ Lists h'.frontier s
  depthSkipped : h.stats.depthSkipped ≤ h'.stats.depthSkipped
  shallow : h'.stats.depthSkipped = 0 → ∀ kid ∈ kids, kid.node.depth ≤ policy.maxDepth
  listed : ∀ kid ∈ kids, kid.node.depth ≤ policy.maxDepth →
    E kid.node.state ∨ Lists h'.frontier kid.node.state

theorem Lists.mono {frontier frontier' : Frontier δ (Placed σ α κ)} {s : σ}
    (h : Lists frontier s) (hk : ∀ n ∈ frontier.items κ, n ∈ frontier'.items κ) :
    Lists frontier' s := by
  obtain ⟨n, hn, hs⟩ := h
  exact ⟨n, hk n hn, hs⟩

theorem Lists.pop? {frontier rest : Frontier δ (Placed σ α κ)} {here : Placed σ α κ} {s : σ}
    (h : Lists frontier s) (sound : frontier.Sound κ) (hpop : frontier.pop? κ = some (here, rest)) :
    s = here.node.state ∨ Lists rest s := by
  obtain ⟨n, hn, rfl⟩ := h
  rcases List.mem_cons.1 ((sound.pop? hpop).2.mem_iff.1 hn) with rfl | hn
  · exact .inl rfl
  · exact .inr ⟨n, hn, rfl⟩

namespace Horizon

variable {policy : TimedPolicy} {memory : Memory σ μ} {knows : μ → σ → Prop} {E : σ → Prop}
  {h h₁ h' : Horizon σ α κ μ δ} {kid : Placed σ α κ} {rest : List (Placed σ α κ)}

theorem Offered.cons (hkid : Offered policy knows E [kid] h h₁) (hrest : Offered policy knows E rest h₁ h') :
    Offered policy knows E (kid :: rest) h h' where
  sound := hrest.sound
  items n hn := by
    rcases hrest.items n hn with hn | hn
    · exact (hkid.items n hn).imp_right fun hn => List.mem_cons.2 (.inl (List.mem_singleton.1 hn))
    · exact .inr (List.mem_cons_of_mem _ hn)
  keeps n hn := hrest.keeps n (hkid.keeps n hn)
  known := hrest.known
  depthSkipped := hkid.depthSkipped.trans hrest.depthSkipped
  shallow hskipped n hn := by
    rcases List.mem_cons.1 hn with rfl | hn
    · have hnone : h₁.stats.depthSkipped = 0 := by
        have := hrest.depthSkipped
        omega
      exact hkid.shallow hnone n (List.mem_singleton_self n)
    · exact hrest.shallow hskipped n hn
  listed n hn hdepth := by
    rcases List.mem_cons.1 hn with rfl | hn
    · exact (hkid.listed n (List.mem_singleton_self n) hdepth).imp_right
        fun hl => hl.mono hrest.keeps
    · exact hrest.listed n hn hdepth

theorem offered_deep (deep : policy.maxDepth < kid.node.depth) (sound : h.frontier.Sound κ)
    (known : ∀ s, knows h.memory s → E s ∨ Lists h.frontier s) :
    Offered policy knows E [kid] h
      ⟨{ h.stats with depthSkipped := h.stats.depthSkipped + 1 }, h.frontier, h.memory⟩ where
  sound := sound
  items n hn := .inl hn
  keeps n hn := hn
  known := known
  depthSkipped := Nat.le_succ _
  shallow hskipped := by cases hskipped
  listed n hn hdepth := by
    obtain rfl := List.mem_singleton.1 hn
    exact absurd hdepth (Nat.not_le.2 deep)

theorem offered_admitted (lawful : memory.Lawful knows) (hdepth : kid.node.depth ≤ policy.maxDepth)
    (sound : h.frontier.Sound κ) (known : ∀ s, knows h.memory s → E s ∨ Lists h.frontier s) {seen : μ}
    (htake : memory.take h.memory kid.node.state = (true, seen)) :
    Offered policy knows E [kid] h ⟨h.stats, h.frontier.push kid kid.node.cost, seen⟩ := by
  have hitems := sound.items_push kid kid.node.cost
  have hkeeps : ∀ n ∈ h.frontier.items κ, n ∈ (h.frontier.push kid kid.node.cost).items κ :=
    fun n hn => hitems.mem_iff.2 (List.mem_cons_of_mem _ hn)
  have hkid : Lists (h.frontier.push kid kid.node.cost) kid.node.state :=
    ⟨kid, hitems.mem_iff.2 (List.mem_cons_self ..), rfl⟩
  have hshallow : ∀ n ∈ [kid], n.node.depth ≤ policy.maxDepth := by simpa using hdepth
  refine ⟨sound.push _ _, ?_, hkeeps, ?_, Nat.le_refl _, fun _ => hshallow, ?_⟩
  · intro n hn
    rcases List.mem_cons.1 (hitems.mem_iff.1 hn) with rfl | hn
    · exact .inr (List.mem_singleton_self n)
    · exact .inl hn
  · intro s hs
    have hadmits := lawful.admits h.memory kid.node.state
    rw [htake] at hadmits
    rcases hadmits rfl s hs with hs | rfl
    · exact (known s hs).imp_right fun hl => hl.mono hkeeps
    · exact .inr hkid
  · intro n hn _
    rw [List.mem_singleton.1 hn]
    exact .inr hkid

theorem offered_refused (lawful : memory.Lawful knows) (hdepth : kid.node.depth ≤ policy.maxDepth)
    (sound : h.frontier.Sound κ) (known : ∀ s, knows h.memory s → E s ∨ Lists h.frontier s) {seen : μ}
    (htake : memory.take h.memory kid.node.state = (false, seen)) :
    Offered policy knows E [kid] h
      ⟨{ h.stats with duplicates := h.stats.duplicates + 1 }, h.frontier, seen⟩ := by
  have hrefuses := lawful.refuses h.memory kid.node.state
  rw [htake] at hrefuses
  obtain ⟨hkid, hold⟩ := hrefuses rfl
  have hshallow : ∀ n ∈ [kid], n.node.depth ≤ policy.maxDepth := by simpa using hdepth
  refine ⟨sound, fun n hn => .inl hn, fun n hn => hn, ?_, Nat.le_refl _, fun _ => hshallow, ?_⟩
  · exact fun s hs => known s (hold s hs)
  · intro n hn _
    rw [List.mem_singleton.1 hn]
    exact known _ hkid

theorem offer_offered (policy : TimedPolicy) (lawful : memory.Lawful knows)
    (kids : List (Placed σ α κ)) (h : Horizon σ α κ μ δ) (sound : h.frontier.Sound κ)
    (known : ∀ s, knows h.memory s → E s ∨ Lists h.frontier s) :
    Offered policy knows E kids h (Horizon.offer policy memory kids h) := by
  induction kids generalizing h with
  | nil =>
    exact ⟨sound, fun n hn => .inl hn, fun n hn => hn, known, Nat.le_refl _, by simp, by simp⟩
  | cons kid rest ih =>
    obtain ⟨stats, frontier, seen⟩ := h
    unfold Horizon.offer
    split
    next hdeep =>
      have hskipped : Offered policy knows E [kid] ⟨stats, frontier, seen⟩ _ :=
        offered_deep hdeep sound known
      exact hskipped.cons (ih _ hskipped.sound hskipped.known)
    next hdeep =>
    have hdepth : kid.node.depth ≤ policy.maxDepth := Nat.le_of_not_lt hdeep
    split
    next seen' htake =>
      have hadmitted := offered_admitted lawful hdepth sound known htake
      exact hadmitted.cons (ih _ hadmitted.sound hadmitted.known)
    next seen' htake =>
      have hrefused := offered_refused lawful hdepth sound known htake
      exact hrefused.cons (ih _ hrefused.sound hrefused.known)

end Horizon

/-! ## The loop -/

variable [Scalar κ]

namespace Exploration

/-- The states in `E` are expanded, and every step out of one of them leads to one of them or to a
state on the frontier, unless something was left out for its depth. -/
structure Explored (P : Problem σ α κ) (knows : μ → σ → Prop) (E : σ → Prop)
    (s : Exploration σ α κ μ δ) : Prop where
  grown : s.run.tree.Grown P
  sound : s.frontier.Sound κ
  held : ∀ n ∈ s.frontier.items κ, s.run.tree.Holds n
  notGoal : ∀ state, E state → P.isGoal state = false
  known : ∀ state, knows s.memory state → E state ∨ Lists s.frontier state
  initial : E P.initial ∨ Lists s.frontier P.initial
  step : s.run.stats.depthSkipped = 0 → ∀ state, E state → ∀ a ∈ P.actions state,
    E (P.result state a) ∨ Lists s.frontier (P.result state a)

section
variable {P : Problem σ α κ} {policy : TimedPolicy} {memory : Memory σ μ}
  {knows : μ → σ → Prop} {E : σ → Prop} {s s' : Exploration σ α κ μ δ} {here : Placed σ α κ}
  {rest : Frontier δ (Placed σ α κ)} {run : Run σ α κ} {kids : List (Placed σ α κ)}

theorem Explored.round (lawful : memory.Lawful knows) (h : Explored P knows E s)
    (hr : Round P policy memory s here rest run kids s') :
    Explored P knows (fun state => E state ∨ state = here.node.state) s' := by
  obtain ⟨hexpands, hrun⟩ := Run.expand_ok hr.expand
  obtain ⟨hsound, hitems⟩ := h.sound.pop? hr.pop
  have hhere : s.run.tree.Holds here := h.held _ (hitems.mem_iff.2 (List.mem_cons_self ..))
  have hlists : ∀ state, E state ∨ Lists s.frontier state →
      (E state ∨ state = here.node.state) ∨ Lists rest state := by
    rintro state (hs | hs)
    · exact .inl (.inl hs)
    · exact (hs.pop? h.sound hr.pop).imp_left .inr
  have hoffered := Horizon.offer_offered (E := fun state => E state ∨ state = here.node.state)
    policy lawful kids ⟨run.stats, rest, s.memory⟩ hsound fun state hs => hlists state (h.known state hs)
  have hstill : ∀ state, E state ∨ Lists s.frontier state →
      (E state ∨ state = here.node.state) ∨
        Lists (Horizon.offer policy memory kids ⟨run.stats, rest, s.memory⟩).frontier state :=
    fun state hs => (hlists state hs).imp_right fun hl => hl.mono hoffered.keeps
  rw [hr.offers]
  constructor
  case grown => exact h.grown.expands hhere hexpands
  case sound => exact hoffered.sound
  case known => exact hoffered.known
  case initial => exact hstill _ h.initial
  case held =>
    intro n hn
    rcases hoffered.items n hn with hn | hn
    · exact (h.held n (hitems.mem_iff.2 (List.mem_cons_of_mem _ hn))).keeps hexpands.keeps
    · exact hexpands.holds n hn
  case notGoal =>
    rintro state (hs | rfl)
    · exact h.notGoal state hs
    · exact hr.notGoal
  case step =>
    intro hskipped state hs a ha
    rcases hs with hs | rfl
    · have hbefore : s.run.stats.depthSkipped = 0 := by
        have hsame : run.stats.depthSkipped = s.run.stats.depthSkipped := by
          rw [hrun]
          rfl
        have hmono := hoffered.depthSkipped
        dsimp only [afterOffers] at hmono hskipped
        omega
      exact hstill _ (h.step hbefore state hs a ha)
    · obtain ⟨kid, hkid, hnode⟩ := hexpands.exists_kid ha
      have hlisted := hoffered.listed kid hkid (hoffered.shallow hskipped kid hkid)
      rwa [hnode] at hlisted

/-- When nothing is on the frontier, and nothing was left out, every reachable state is expanded. -/
theorem Explored.covers (h : Explored P knows E s) (hempty : s.frontier.items κ = [])
    (hskipped : s.run.stats.depthSkipped = 0) {t : σ} (ht : P.Reachable t) : E t := by
  have hnone : ∀ state, ¬ Lists s.frontier state := by
    rintro state ⟨n, hn, -⟩
    rw [hempty] at hn
    cases hn
  refine ht.closed (h.initial.resolve_right (hnone _)) ?_
  intro state hstate a ha
  exact (h.step hskipped state hstate a ha).resolve_right (hnone _)

theorem explored_start (lawful : memory.Lawful knows) (P : Problem σ α κ) (policy : TimedPolicy) :
    Explored P knows (fun _ => False) (start δ P policy memory) := by
  have hsound : (Frontier.empty κ : Frontier δ (Placed σ α κ)).Sound κ := Frontier.sound_empty
  have hitems := hsound.items_push (Run.start P policy).2 (0 : κ)
  rw [Frontier.items_empty] at hitems
  have hroot : Lists (start δ P policy memory).frontier P.initial :=
    ⟨_, hitems.mem_iff.2 (List.mem_singleton_self _), rfl⟩
  refine ⟨SearchTree.grown_root, hsound.push _ _, ?_, by simp, ?_, .inr hroot, by simp⟩
  · intro n hn
    rw [List.mem_singleton.1 (hitems.mem_iff.1 hn)]
    exact Run.holds_start P policy
  · intro state hs
    rw [lawful.initial _ _ hs]
    exact .inr hroot

/-- However the search ends, what that tells is true. -/
theorem Explored.conclusive (h : Explored P knows E s) {algorithm : String} {r : Result σ α κ}
    (hends : Ends P s algorithm r) : r.termination.Conclusive P := by
  constructor
  · intro hr t ht
    obtain ⟨hempty, hexhausted⟩ := hends.exhausted (.inl hr)
    rw [hr] at hexhausted
    exact h.notGoal t (h.covers (h.sound.items_eq_nil hempty)
      (Run.exhausted_eq_frontierExhausted.1 hexhausted.symm) ht)
  · intro id hr
    obtain ⟨here, rest, hpop, hgoal, -, -⟩ := hends.goalReached hr
    have hhere := (h.sound.pop? hpop).2.mem_iff.2 (List.mem_cons_self ..)
    exact ⟨here.node.state, h.grown.reachable (h.held here hhere), hgoal⟩

end

end Exploration

open Exploration in
/-- Exploring from the root on is conclusive, with every lawful discipline and memory. -/
theorem exploreFromRoot_conclusive {memory : Memory σ μ} {knows : μ → σ → Prop}
    (lawful : memory.Lawful knows) (P : Problem σ α κ) (policy : TimedPolicy) (algorithm : String) :
    (exploreFromRoot δ P policy memory algorithm).termination.Conclusive P := by
  obtain ⟨s, ⟨E, h⟩, hends⟩ := exploreFromRoot_ends
    (I := fun s : Exploration σ α κ μ δ => ∃ E, Explored P knows E s)
    (fun ⟨_, h⟩ hr => ⟨_, h.round lawful hr⟩) algorithm ⟨_, explored_start lawful P policy⟩
  exact h.conclusive hends

end ProblemSolving
