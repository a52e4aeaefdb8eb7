import PrettyFormat.Arrange

/-! What prints. `be` fails at a LINE with a negative indent, at a CHOICE whose measure
cannot read the stack, and where its int arithmetic overflows; `measureSafe` rules out
the first two by a recursion over the document, and a bound on its columns the third. -/

namespace PrettyFormat

theorem inIntRange_sub {w k : UInt32} (narrow : w.toNat < 2 ^ 31) (short : k.toNat < 2 ^ 31) :
    inIntRange (castInt w - castInt k) := by
  simp only [inIntRange, castInt, if_pos narrow, if_pos short, decide_eq_true_eq]
  omega

theorem toNat_ofNat_of_lt_half {n : Nat} (small : n < 2 ^ 31) : (UInt32.ofNat n).toNat = n :=
  UInt32.toNat_ofNat_of_lt (by simp only [UInt32.size]; omega)

theorem toNat_add_ofNat {k : UInt32} {n : Nat} (short : k.toNat + n < 2 ^ 31) :
    (k + UInt32.ofNat n).toNat = k.toNat + n := by
  show (k.toNat + (UInt32.ofNat n).toNat) % 2 ^ 32 = _
  rw [toNat_ofNat_of_lt_half (by omega), Nat.mod_eq_of_lt (by omega)]

namespace Format

mutual
/-- Whether every nest amount is non-negative and every CHOICE that leaves the count to
the stack stands where the measure can read it: `readable` and `after` as in `arrangeBe`. -/
def measureSafe (readable : Bool) (after : Nat) : Format → Bool
  | nil | line | text _ | colorBegin _ | colorEnd => true
  | nest j x => decide (0 ≤ j) && measureSafe readable after x
  | compose l => measureSafeList (after == 1) l
  | choice x y =>
    (x.lead.2 || readable) && measureSafe readable after x && measureSafe readable after y

def measureSafeList (readable : Bool) : List Format → Bool
  | [] => true
  | x :: l => measureSafe readable l.length x && measureSafeList readable l
end

mutual
/-- How far past its start column or its indent `f` can move the column: its text
lengths and nest amounts, with the larger alternative of each CHOICE. -/
def extent : Format → Nat
  | nil | line | colorBegin _ | colorEnd => 0
  | nest j x => j.toNat + extent x
  | compose l => extentList l
  | choice x y => max (extent x) (extent y)
  | text t => t.length

def extentList : List Format → Nat
  | [] => 0
  | x :: l => extent x + extentList l
end

/-- On such a document, at a non-negative indent, `arrangeBe` does not fail while the
start column or the indent plus `extent` stays below `2^31`, and ends within that bound. -/
theorem arrangeBe_column_le {w : UInt32} (narrow : w.toNat < 2 ^ 31) (f : Format) :
    ∀ {readable after i k}, 0 ≤ i → f.measureSafe readable after = true →
      max k.toNat i.toNat + f.extent < 2 ^ 31 →
      ∃ out k', f.arrangeBe w i k readable after = some (out, k') ∧
        k'.toNat ≤ max k.toNat i.toNat + f.extent := by
  induction f using Format.induction with
  | nest j x ih =>
    intro readable after i k indent safe short
    simp only [measureSafe, Bool.and_eq_true, decide_eq_true_eq] at safe
    rw [extent] at short ⊢
    have range : inIntRange (i + j) := by simp only [inIntRange, decide_eq_true_eq]; omega
    obtain ⟨out, k', laid, bound⟩ := ih (Int.add_nonneg indent safe.1) safe.2 (k := k) (by omega)
    exact ⟨out, k', by rw [arrangeBe, if_pos range, laid], by omega⟩
  | compose l ih =>
    intro readable after i k indent safe short
    rw [measureSafe] at safe
    rw [extent] at short ⊢
    rw [arrangeBe]
    induction l generalizing k with
    | nil => exact ⟨[], k, rfl, by omega⟩
    | cons x l ihl =>
      simp only [List.mem_cons, forall_eq_or_imp] at ih
      simp only [measureSafeList, Bool.and_eq_true] at safe
      rw [extentList] at short ⊢
      obtain ⟨out, k₁, laid, first⟩ := ih.1 indent safe.1 (k := k) (by omega)
      obtain ⟨rest, k₂, restLaid, second⟩ := ihl ih.2 safe.2 (k := k₁) (by omega)
      exact ⟨out ++ rest, k₂, by simp [arrangeBeList, laid, restLaid], by omega⟩
  | choice x y ihx ihy =>
    intro readable after i k indent safe short
    simp only [measureSafe, Bool.and_eq_true] at safe
    rw [extent] at short ⊢
    have range : inIntRange (castInt w - castInt k) := inIntRange_sub narrow (by omega)
    rw [arrangeBe, if_pos (by rw [safe.1.1, range]; rfl)]
    split
    · obtain ⟨out, k', laid, bound⟩ := ihx indent safe.1.2 (k := k) (by omega)
      exact ⟨out, k', laid, by omega⟩
    · obtain ⟨out, k', laid, bound⟩ := ihy indent safe.2 (k := k) (by omega)
      exact ⟨out, k', laid, by omega⟩
  | line =>
    intro readable after i k indent _ short
    refine ⟨_, _, if_neg (not_lt.mpr indent), ?_⟩
    rw [toNat_ofNat_of_lt_half (by simp only [extent] at short; omega)]
    omega
  | text t =>
    intro readable after i k _ _ short
    rw [extent] at short ⊢
    exact ⟨_, _, rfl, by rw [toNat_add_ofNat (by omega)]; omega⟩
  | _ => intro readable after i k _ _ _; exact ⟨_, _, rfl, by simp only [extent]; omega⟩

end Format

/-- A document whose every CHOICE can be measured where it stands, and whose nest
amounts are non-negative, prints at every width below `2^31` from every column that
leaves room for its `extent` below `2^31`. -/
theorem best_measureSafe {f : Format} (safe : f.measureSafe true 0 = true) {w k : UInt32}
    (narrow : w.toNat < 2 ^ 31) (short : k.toNat + f.extent < 2 ^ 31) :
    ∃ printed, best w k f.toSexpr = some (encodeOutput printed) := by
  obtain ⟨out, _, laid, -⟩ := f.arrangeBe_column_le narrow (k := k) (le_refl 0) safe (by omega)
  exact ⟨out, by rw [best_encode, Typed.best_arrangeBe, laid]; rfl⟩

theorem best_wrap_prints :
    (wrap (.text "a") (.text "b")).measureSafe true 0 = true ∧ (1 : UInt32).toNat < 2 ^ 31 ∧
      (0 : UInt32).toNat + (wrap (.text "a") (.text "b")).extent < 2 ^ 31 ∧
      ∃ printed, best 1 0 (wrap (.text "a") (.text "b")).toSexpr = some (encodeOutput printed) := by
  have safe : (wrap (.text "a") (.text "b")).measureSafe true 0 = true := rfl
  have short : (0 : UInt32).toNat + (wrap (.text "a") (.text "b")).extent < 2 ^ 31 := by decide
  exact ⟨safe, by decide, short, best_measureSafe safe (by decide) short⟩

open Typed

/-- A document whose nest amounts are all non-negative, in both alternatives of every CHOICE. -/
inductive Format.NestsNonneg : Format → Prop
  | nil : NestsNonneg .nil
  | nest {j : Int} {x : Format} : 0 ≤ j → NestsNonneg x → NestsNonneg (.nest j x)
  | compose {parts : List Format} : (∀ x ∈ parts, NestsNonneg x) → NestsNonneg (.compose parts)
  | choice {x y : Format} : NestsNonneg x → NestsNonneg y → NestsNonneg (.choice x y)
  | line : NestsNonneg .line
  | text {t : String} : NestsNonneg (.text t)
  | colorBegin {c : Color} : NestsNonneg (.colorBegin c)
  | colorEnd : NestsNonneg .colorEnd

namespace Pending

theorem stepHead_nestsNonneg {w k : UInt32} {i : Int} {f : Format} (indent : 0 ≤ i)
    (nonneg : f.NestsNonneg) :
    ∃ out k' front, stepHead w k (i, f) = some (out, k', front) ∧
      ∀ entry ∈ front, 0 ≤ entry.1 ∧ entry.2.NestsNonneg := by
  cases nonneg with
  | nest amount body => exact ⟨_, _, _, rfl, by simpa using ⟨Int.add_nonneg indent amount, body⟩⟩
  | compose parts => exact ⟨_, _, _, rfl, by simpa using fun x mem => ⟨indent, parts x mem⟩⟩
  | choice first second =>
    refine ⟨_, _, _, rfl, ?_⟩
    split <;> simpa [indent]
  | line => exact ⟨_, _, [], if_neg (not_lt.mpr indent), by simp⟩
  | _ => exact ⟨_, _, _, rfl, by simp⟩

/-- The single-list layout prints every list of such entries. -/
theorem run_isSome (w k : UInt32) {s : List (Int × Format)}
    (wellFormed : ∀ entry ∈ s, 0 ≤ entry.1 ∧ entry.2.NestsNonneg) : (run w k s).isSome := by
  induction k, s using run.induct w with
  | case1 k s failed =>
    match s, wellFormed with
    | [], _ => cases failed
    | (i, f) :: z, wellFormed =>
      obtain ⟨⟨indent, nonneg⟩, -⟩ := List.forall_mem_cons.mp wellFormed
      obtain ⟨out, k', front, head, -⟩ := stepHead_nestsNonneg (w := w) (k := k) indent nonneg
      simp [step, head] at failed
  | case2 k s done => rw [run_of_step_done done]; rfl
  | case3 k s out k' s' next ih =>
    rw [run_of_step_next next]
    match s, wellFormed, next with
    | (i, f) :: z, wellFormed, next =>
      obtain ⟨⟨indent, nonneg⟩, rest⟩ := List.forall_mem_cons.mp wellFormed
      obtain ⟨front, head, rfl⟩ := step_cons_eq_some next
      obtain ⟨_, _, _, head', frontWellFormed⟩ := stepHead_nestsNonneg (w := w) (k := k) indent nonneg
      rw [head] at head'
      cases head'
      simpa using ih fun entry mem => (List.mem_append.mp mem).elim (frontWellFormed entry) (rest entry)

end Pending

end PrettyFormat
