import ProblemSolving.Proofs.Constraint.Restoration

/-!
# Removals undone under every nesting

* `Domains.Operation`, `Domains.Marked` : removals, marks and undoings one after the other, with the
  marks that can still be undone to.
* `Domains.Faithful` : the marks of what is alive, the sizes and the trail tell of the same removals.
* `Domains.Nested` : from each mark, undoing leads back to the one before.
* `Domains.Marked.Sound` : what every operation keeps (`Sound.perform?`, `Sound.run?`).
* `nestedUndo_exact` : what holds after any operations.
-/

namespace ProblemSolving

variable {ν : Type} {m : Model ν}

namespace Domains

/-! ## Operations -/

/-- What is done to domains. -/
inductive Operation where
  | prune (v ix : Nat)
  | restrictTo (v ix : Nat)
  /-- To set a mark. -/
  | checkpoint
  /-- To undo every removal since a mark, which stands below so many later ones. -/
  | undoTo (later : Nat)
deriving DecidableEq

/-- A mark: the place on the trail that undoing goes back to, and what was alive when it was set. -/
structure Mark where
  position : Nat
  alive : Array (Array Bool)
deriving DecidableEq

/-- Domains with the marks that can be undone to, the latest first. -/
structure Marked where
  domains : Domains
  marks : List Mark
  /-- The number of removals that were undone. -/
  undone : Nat
deriving DecidableEq

namespace Marked

def start (m : Model ν) : Marked := ⟨.full m, [], 0⟩

/-- Does one operation. Undoing takes back the marks after the one that is undone to; it counts the
values that become alive. -/
def perform? (s : Marked) : Operation → Option Marked
  | .prune v ix => some { s with domains := s.domains.prune v ix }
  | .restrictTo v ix => some { s with domains := s.domains.restrictTo v ix }
  | .checkpoint => some { s with marks := ⟨s.domains.checkpoint, s.domains.alive⟩ :: s.marks }
  | .undoTo later =>
    match s.marks.drop later with
    | [] => none
    | mark :: earlier =>
      let restored := s.domains.undoTo mark.position
      some ⟨restored, mark :: earlier, s.undone + (restored.liveCount - s.domains.liveCount)⟩

/-- Does operations one after the other, if every mark that is undone to is still there. -/
def run? (s : Marked) (ops : List Operation) : Option Marked := ops.foldlM perform? s

end Marked

/-! ## What the representations tell -/

/-- A value is on the trail once if it is not alive, and else not at all. -/
def TrailExact (m : Model ν) (d : Domains) : Prop :=
  ∀ v ix, d.trail.count (v, ix) =
    if ix < (m.domain v).size ∧ d.isAlive v ix = false then 1 else 0

/-- The marks of what is alive, the sizes and the trail tell of the same removals. -/
structure Faithful (m : Model ν) (d : Domains) : Prop where
  belongs : d.BelongsTo m
  trail : TrailExact m d
  balance : d.liveCount + d.trail.length = (full m).liveCount

theorem faithful_full (m : Model ν) : Faithful m (full m) where
  belongs := belongsTo_full m
  trail v ix := by
    rw [if_neg]
    · rfl
    · rintro ⟨hlt, hdead⟩
      exact absurd ((isAlive_full_iff m v ix).2 hlt) (Bool.eq_false_iff.1 hdead)
  balance := rfl

variable {d d' : Domains}

theorem trail_prune_of_alive {v ix : Nat} (halive : d.isAlive v ix = true) :
    (d.prune v ix).trail = (v, ix) :: d.trail := by
  unfold prune
  rw [if_pos halive]

theorem prunings_prune_of_alive {v ix : Nat} (halive : d.isAlive v ix = true) :
    (d.prune v ix).prunings = d.prunings + 1 := by
  unfold prune
  rw [if_pos halive]

theorem TrailExact.prune (h : TrailExact m d) {v ix : Nat} (hlt : ix < (m.domain v).size)
    (halive : d.isAlive v ix = true) : TrailExact m (d.prune v ix) := by
  intro w jx
  have hcount := h w jx
  rw [trail_prune_of_alive halive, List.count_cons, hcount, isAlive_prune]
  by_cases hsame : w = v ∧ jx = ix
  · obtain ⟨rfl, rfl⟩ := hsame
    simp [halive, hlt]
  · have hne : ((v, ix) == (w, jx)) = false := by
      rw [beq_eq_false_iff_ne]
      rintro ⟨⟩
      exact hsame ⟨rfl, rfl⟩
    have hother : (w == v && jx == ix) = false := by
      simpa using fun hw => fun hjx => hsame ⟨hw, hjx⟩
    simp [hne, hother]

theorem Faithful.prune (h : d.Faithful m) (v ix : Nat) : (d.prune v ix).Faithful m := by
  cases halive : d.isAlive v ix with
  | false => rwa [prune_of_dead halive]
  | true =>
    refine ⟨h.belongs.pruneAll v [ix], h.trail.prune (h.belongs.lt_size v ix halive) halive, ?_⟩
    have hlive := liveCount_prune halive
    have hbalance := h.balance
    rw [trail_prune_of_alive halive, List.length_cons]
    omega

theorem Agrees.liveCount (h : d'.Agrees d) : d'.liveCount = d.liveCount := by
  unfold Domains.liveCount
  rw [h.alive]

theorem Faithful.of_agrees (h : d.Faithful m) (hd : d'.Agrees d) : d'.Faithful m where
  belongs := h.belongs.of_agrees hd
  trail v ix := by
    rw [hd.trail, hd.isAlive]
    exact h.trail v ix
  balance := by
    rw [hd.liveCount, hd.trail]
    exact h.balance

theorem Faithful.isWipedOut_iff (h : d.Faithful m) {v : Nat} (hv : v < m.size) :
    d.isWipedOut v = true ↔ d.indices v = [] := by
  rw [h.belongs.counted.isWipedOut_iff (h.belongs.covers hv), List.eq_nil_iff_forall_not_mem]
  exact forall_congr' fun ix => by rw [mem_indices_iff, Bool.not_eq_true]

/-! ## Marks -/

theorem undo_add (a b : Nat) (d : Domains) : undo (a + b) d = undo b (undo a d) := by
  induction a generalizing d with
  | zero => rw [Nat.zero_add]; rfl
  | succ a ih =>
    rw [Nat.succ_add]
    exact ih d.undoOne

theorem UndoesTo.trans {d₀ : Domains} (h : d'.UndoesTo d) (h' : d.UndoesTo d₀) :
    d'.UndoesTo d₀ := by
  obtain ⟨later, hlater, hagrees⟩ := h
  obtain ⟨earlier, hearlier, hagrees'⟩ := h'
  refine ⟨later + earlier, by omega, ?_⟩
  rw [undo_add]
  exact (hagrees.undo earlier).trans hagrees'

/-- From the domains, undoing leads back to where the latest mark was set, and from there to the
earlier ones. -/
inductive Nested (m : Model ν) : Domains → List Mark → Prop
  | nil (d : Domains) : Nested m d []
  | cons {d d₀ : Domains} {earlier : List Mark} (hundoes : d.UndoesTo d₀) (hd₀ : d₀.Faithful m)
      (hearlier : Nested m d₀ earlier) : Nested m d (⟨d₀.checkpoint, d₀.alive⟩ :: earlier)

variable {marks : List Mark}

theorem Nested.prune (h : Nested m d marks) (hd : d.Counted) (v ix : Nat) :
    Nested m (d.prune v ix) marks := by
  cases h with
  | nil => exact .nil _
  | cons hundoes hd₀ hearlier => exact .cons (hundoes.prune hd v ix) hd₀ hearlier

theorem Nested.of_undoesTo (h : Nested m d marks) (hd' : d'.UndoesTo d) : Nested m d' marks := by
  cases h with
  | nil => exact .nil _
  | cons hundoes hd₀ hearlier => exact .cons (hd'.trans hundoes) hd₀ hearlier

/-- Undoing leads back to any of the marks, whatever marks were set later. -/
theorem Nested.drop {mark : Mark} {earlier : List Mark} (h : Nested m d marks) {later : Nat}
    (hdrop : marks.drop later = mark :: earlier) :
    ∃ d₀ : Domains, d.UndoesTo d₀ ∧ d₀.Faithful m ∧ mark = ⟨d₀.checkpoint, d₀.alive⟩ ∧
      Nested m d₀ (mark :: earlier) := by
  induction h generalizing later with
  | nil => simp at hdrop
  | @cons d d₀ rest hundoes hd₀ hearlier ih =>
    cases later with
    | zero =>
      cases hdrop
      exact ⟨d₀, hundoes, hd₀, rfl, .cons (.refl d₀) hd₀ hearlier⟩
    | succ later =>
      obtain ⟨d₁, hundoes', hd₁⟩ := ih hdrop
      exact ⟨d₁, hundoes.trans hundoes', hd₁⟩

/-! ## What every operation keeps -/

namespace Marked

/-- The domains are told of faithfully, the marks are nested, and the removals are those on the trail
and those that were undone. -/
structure Sound (m : Model ν) (s : Marked) : Prop where
  faithful : s.domains.Faithful m
  nested : Nested m s.domains s.marks
  prunings : s.domains.prunings = s.domains.trail.length + s.undone

theorem sound_start (m : Model ν) : (start m).Sound m := ⟨faithful_full m, .nil _, rfl⟩

variable {s s' : Marked}

theorem Sound.prune (h : s.Sound m) (v ix : Nat) :
    Sound m { s with domains := s.domains.prune v ix } := by
  cases halive : s.domains.isAlive v ix with
  | false => rwa [prune_of_dead halive]
  | true =>
    refine ⟨h.faithful.prune v ix, h.nested.prune h.faithful.belongs.counted v ix, ?_⟩
    have hprunings := h.prunings
    dsimp only
    rw [prunings_prune_of_alive halive, trail_prune_of_alive halive, List.length_cons]
    omega

theorem Sound.pruneAll (v : Nat) (places : List Nat) (h : s.Sound m) :
    Sound m { s with domains := s.domains.pruneAll v places } := by
  induction places generalizing s with
  | nil => exact h
  | cons ix rest ih => exact ih (h.prune v ix)

theorem Sound.checkpoint (h : s.Sound m) :
    Sound m { s with marks := ⟨s.domains.checkpoint, s.domains.alive⟩ :: s.marks } :=
  ⟨h.faithful, .cons (.refl _) h.faithful h.nested, h.prunings⟩

/-- Undoing to a mark brings back what was alive when it was set, and counts just the removals that
leave the trail. -/
theorem Sound.undoTo (h : s.Sound m) {later : Nat} {mark : Mark} {earlier : List Mark}
    (hdrop : s.marks.drop later = mark :: earlier) :
    (s.domains.undoTo mark.position).alive = mark.alive ∧
    Sound m ⟨s.domains.undoTo mark.position, mark :: earlier, s.undone +
      ((s.domains.undoTo mark.position).liveCount - s.domains.liveCount)⟩ := by
  obtain ⟨d₀, hundoes, hd₀, rfl, hnested⟩ := h.nested.drop hdrop
  have hagrees : (s.domains.undoTo d₀.checkpoint).Agrees d₀ := hundoes.agrees_undoTo
  refine ⟨hagrees.alive, hd₀.of_agrees hagrees, hnested.of_undoesTo (.of_agrees (.refl d₀) hagrees), ?_⟩
  -- live values and removals on the trail add up to the same, so as many values become alive as
  -- removals leave the trail
  have hbefore := h.faithful.balance
  have hafter := hd₀.balance
  have hprunings := h.prunings
  obtain ⟨removals, hlength, -⟩ := hundoes
  have hsame : (s.domains.undoTo d₀.checkpoint).prunings = s.domains.prunings :=
    prunings_undo _ s.domains
  dsimp only
  rw [hsame, hagrees.trail, hagrees.liveCount]
  omega

theorem Sound.perform? (h : s.Sound m) {op : Operation} (hop : s.perform? op = some s') :
    s'.Sound m := by
  cases op with
  | prune v ix =>
    cases hop
    exact h.prune v ix
  | restrictTo v ix =>
    cases hop
    exact h.pruneAll v _
  | checkpoint =>
    cases hop
    exact h.checkpoint
  | undoTo later =>
    unfold Marked.perform? at hop
    dsimp only at hop
    split at hop
    · cases hop
    next mark earlier hdrop =>
      cases hop
      exact (h.undoTo hdrop).2

theorem Sound.run? (ops : List Operation) (h : s.Sound m) (hops : s.run? ops = some s') :
    s'.Sound m := by
  induction ops generalizing s with
  | nil =>
    cases hops
    exact h
  | cons op rest ih =>
    unfold Marked.run? at hops
    rw [List.foldlM_cons] at hops
    obtain ⟨next, hop, hrest⟩ := Option.bind_eq_some_iff.1 hops
    exact ih (h.perform? hop) hrest

/-- Sizes, trail, wiped-out variables, marks and counts are exact. -/
structure Exact (m : Model ν) (s : Marked) : Prop where
  sizes : s.domains.Counted
  trail : TrailExact m s.domains
  wipedOut : ∀ v < m.size, s.domains.isWipedOut v = true ↔ s.domains.indices v = []
  restores : ∀ mark ∈ s.marks, (s.domains.undoTo mark.position).alive = mark.alive
  prunings : s.domains.prunings = s.domains.trail.length + s.undone

theorem Sound.exact (h : s.Sound m) : s.Exact m where
  sizes := h.faithful.belongs.counted
  trail := h.faithful.trail
  wipedOut _ := h.faithful.isWipedOut_iff
  restores mark hmark := by
    obtain ⟨later, earlier, hmarks⟩ := List.append_of_mem hmark
    have hdrop : s.marks.drop later.length = mark :: earlier := by rw [hmarks, List.drop_left]
    exact (h.undoTo hdrop).1
  prunings := h.prunings

end Marked

end Domains

/-- **Undoing is exact under every nesting.** After any operations on the full domains of a model, in
which the mark that is undone to is always one that was not taken back, the sizes are the numbers of
live values, the trail lists each dead value once and no other, a variable is wiped out when it has no
value left, undoing to any of the marks brings back just what was alive when it was set, and the
removals ever made are those on the trail and those that were undone. -/
theorem nestedUndo_exact (m : Model ν) (ops : List Domains.Operation) {s : Domains.Marked}
    (h : (Domains.Marked.start m).run? ops = some s) : s.Exact m :=
  ((Domains.Marked.sound_start m).run? ops h).exact

/-- Two variables with three and two values. -/
def twoLetters : Model Char where
  vars := #[⟨"x", #['a', 'b', 'c']⟩, ⟨"y", #['a', 'b']⟩]
  constraints := #[]
  links := #[[], []]

/-- A removal, and two more under two marks; the first value is to be removed twice. Then undoing goes
past the later mark. -/
def twoLettersOperations : List Domains.Operation :=
  [.prune 0 0, .checkpoint, .prune 0 0, .restrictTo 0 2, .checkpoint, .prune 1 1, .undoTo 1]

/-- The first removal is left, and two of three were undone. -/
def twoLettersUndone : Domains.Marked where
  domains := ⟨#[#[false, true, true], #[true, true]], #[2, 2], [(0, 0)], 3⟩
  marks := [⟨1, #[#[false, true, true], #[true, true]]⟩]
  undone := 2

theorem twoLetters_exact :
    (Domains.Marked.start twoLetters).run? twoLettersOperations = some twoLettersUndone ∧
    twoLettersUndone.Exact twoLetters := by
  have hrun : (Domains.Marked.start twoLetters).run? twoLettersOperations =
      some twoLettersUndone := by decide +kernel
  exact ⟨hrun, nestedUndo_exact twoLetters twoLettersOperations hrun⟩

end ProblemSolving
