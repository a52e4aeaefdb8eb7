import PrettyFormat.Be

/-! The layout `be` computes whenever it does not fail, on one pending list with each
COMPOSE replaced in place by its parts. `be` keeps the rest of each pending list on its
stack instead; reading the stack back into one list turns its runs into runs of this. -/

namespace PrettyFormat

namespace Pending

inductive Step where
  | done
  | next (out : List Format) (k : UInt32) (s : List (Int × Format))

/-- What the first entry of a pending list emits, the column after, and the entries that
take its place. -/
def stepHead (w k : UInt32) : Int × Format → Option (List Format × UInt32 × List (Int × Format))
  | (_, .nil) => some ([], k, [])
  | (_, .colorBegin c) => some ([.colorBegin c], k, [])
  | (_, .colorEnd) => some ([.colorEnd], k, [])
  | (i, .compose l) => some ([], k, l.map (i, ·))
  | (i, .nest j x) => some ([], k, [(i + j, x)])
  | (_, .text t) => some ([.text t], k + UInt32.ofNat t.length, [])
  | (i, .line) =>
    if i < 0 then none else some ([.line, .text (spaces i.toNat)], UInt32.ofNat i.toNat, [])
  | (i, .choice x y) => some ([], k, [if fits w k x.lead.1 then (i, x) else (i, y)])

def step (w k : UInt32) : List (Int × Format) → Option Step
  | [] => some .done
  | entry :: z => (stepHead w k entry).map fun (out, k', front) => .next out k' (front ++ z)

theorem step_cons_eq_some {w k k' : UInt32} {entry : Int × Format} {z s' : List (Int × Format)}
    {out : List Format} (next : step w k (entry :: z) = some (.next out k' s')) :
    ∃ front, stepHead w k entry = some (out, k', front) ∧ s' = front ++ z := by
  obtain ⟨⟨out, k', front⟩, head, next⟩ := Option.map_eq_some'.mp next
  cases next
  exact ⟨front, head, rfl⟩

theorem step_done {w k : UInt32} {s : List (Int × Format)} (done : step w k s = some .done) :
    s = [] := by
  match s with
  | [] => rfl
  | _ :: _ =>
    obtain ⟨_, _, stepped⟩ := Option.map_eq_some'.mp done
    cases stepped

theorem step_weight {w k k' : UInt32} {s s' : List (Int × Format)} {out : List Format}
    (next : step w k s = some (.next out k' s')) :
    pendingWeight (Typed.encodePending s') < pendingWeight (Typed.encodePending s) := by
  match s with
  | [] => cases next
  | (i, f) :: z =>
    obtain ⟨front, head, rfl⟩ := step_cons_eq_some next
    simp only [Typed.encodePending, List.map_append, List.map_cons, pendingWeight_append,
      Sexpr.ofList_cons, pendingWeight, entryWeight, Typed.encodeEntry]
    cases f with
    | compose l =>
      cases head
      have parts := pendingWeight_map (Sexpr.map_ofList (.cons (.int i)) (l.map Format.toSexpr))
      simp only [List.map_map, Function.comp_def, Typed.encodeEntry] at parts ⊢
      simp only [Format.toSexpr, sexprCompose, sexprNode, Sexpr.weight, Format.toSexprList_eq]
      omega
    | line =>
      simp only [stepHead] at head
      split at head <;> cases head
      simp only [List.map_nil, Sexpr.ofList_nil, pendingWeight]
      omega
    | choice x y =>
      simp only [stepHead] at head
      cases head
      split <;>
        simp only [List.map_cons, List.map_nil, Sexpr.ofList_cons, Sexpr.ofList_nil, pendingWeight,
          entryWeight, Typed.encodeEntry, Format.toSexpr, sexprNode, Sexpr.weight,
          Sexpr.partsWeight] <;> omega
    | nest j x =>
      cases head
      simp only [List.map_cons, List.map_nil, Sexpr.ofList_cons, Sexpr.ofList_nil, pendingWeight,
        entryWeight, Typed.encodeEntry, Format.toSexpr, sexprNode, Sexpr.weight, Sexpr.partsWeight]
      omega
    | _ =>
      cases head
      simp only [List.map_nil, Sexpr.ofList_nil, pendingWeight]
      omega

/-- The layout of a single pending list from column `k`. -/
def run (w k : UInt32) (s : List (Int × Format)) : Option (List Format) :=
  match next : step w k s with
  | none => none
  | some .done => some []
  | some (.next out k' s') => (run w k' s').map (out ++ ·)
termination_by pendingWeight (Typed.encodePending s)
decreasing_by exact step_weight next

section
variable {w k k' : UInt32} {s s' : List (Int × Format)} {out : List Format}

theorem run_of_step_none (failed : step w k s = none) : run w k s = none := by
  rw [run]; split <;> simp_all

theorem run_of_step_done (done : step w k s = some .done) : run w k s = some [] := by
  rw [run]; split <;> simp_all

theorem run_of_step_next (next : step w k s = some (.next out k' s')) :
    run w k s = (run w k' s').map (out ++ ·) := by
  rw [run]; split <;> simp_all

end

/-- Replacing a COMPOSE anywhere in a pending list by its parts does not change the layout. -/
theorem run_expand (w k : UInt32) (s : List (Int × Format)) (i : Int) (l : List Format)
    (rest : List (Int × Format)) :
    ∀ front, s = front ++ (i, .compose l) :: rest →
      run w k s = run w k (front ++ l.map (i, ·) ++ rest) := by
  induction k, s using run.induct w with
  | case1 k s failed =>
    rintro (_ | ⟨entry, front⟩) rfl
    · simp [step, stepHead] at failed
    · rw [run_of_step_none failed, run_of_step_none]
      simpa [step] using failed
  | case2 k s done =>
    rintro front rfl
    simpa using step_done done
  | case3 k s out k' s' next ih =>
    rintro (_ | ⟨entry, front⟩) rfl
    · obtain ⟨_, head, rfl⟩ := step_cons_eq_some next
      simp only [stepHead, Option.some.injEq, Prod.mk.injEq] at head
      obtain ⟨rfl, rfl, rfl⟩ := head
      rw [run_of_step_next next, List.nil_append]
      cases run w k (l.map (i, ·) ++ rest) <;> rfl
    · obtain ⟨front', head, rfl⟩ := step_cons_eq_some next
      have stepped : step w k (entry :: front ++ l.map (i, ·) ++ rest) =
          some (.next out k' (front' ++ front ++ l.map (i, ·) ++ rest)) := by
        simp [step, head]
      rw [run_of_step_next next, ih (front' ++ front) (by simp), run_of_step_next stepped]

theorem run_compose (w k : UInt32) (i : Int) (l : List Format) (rest : List (Int × Format)) :
    run w k ((i, .compose l) :: rest) = run w k (l.map (i, ·) ++ rest) :=
  run_expand w k _ i l rest [] rfl

end Pending

/-! ### `be` refines the single-list layout -/

namespace Typed

section
variable {w k k' : UInt32} {s s' : List (Int × Format)} {r r' : List (List (Int × Format))}
  {out : List Format}

/-- A step of `be` either pops its stack, which leaves the pending list read as one
list unchanged, or is a step of the single-list layout on that list. -/
theorem beStep_pending (next : beStep w k s r = some (.next out k' s' r')) :
    (out = [] ∧ k' = k ∧ s' ++ r'.flatten = s ++ r.flatten) ∨
      Pending.step w k (s ++ r.flatten) = some (.next out k' (s' ++ r'.flatten)) := by
  match s, r with
  | [], z :: r => cases next; simp
  | (i, f) :: z, r =>
    right
    cases f with
    | compose l => cases next; simp [Pending.step, Pending.stepHead]
    | line | nest _ _ =>
      simp only [beStep] at next
      split at next <;> cases next
      simp_all [Pending.step, Pending.stepHead]
    | choice x y =>
      cases beStep_choice_eq_some next
      simp only [Pending.step, Pending.stepHead, List.cons_append]
      split <;> rfl
    | _ => cases next; rfl

theorem beStep_done (done : beStep w k s r = some .done) : s = [] ∧ r = [] := by
  match s, r with
  | [], [] => exact ⟨rfl, rfl⟩
  | [], _ :: _ => cases done
  | (i, f) :: z, r =>
    exfalso
    cases f with
    | choice x y => cases beStep_choice_eq_some done
    | _ => simp [beStep] at done

end

/-- Whenever `be` prints, it prints the single-list layout of its pending list
followed by the lists on its stack. -/
theorem be_refines_run {w k : UInt32} {s : List (Int × Format)} {r : List (List (Int × Format))}
    {printed : List Format} (success : be w k s r = some printed) :
    Pending.run w k (s ++ r.flatten) = some printed := by
  induction k, s, r using be.induct w generalizing printed with
  | case1 k s r failed => simp [be_of_beStep_none failed] at success
  | case2 k s r done =>
    obtain ⟨rfl, rfl⟩ := beStep_done done
    rw [be_of_beStep_done done] at success
    cases success
    exact Pending.run_of_step_done rfl
  | case3 k s r out k' s' r' next ih =>
    rw [be_of_beStep_next next] at success
    obtain ⟨rest, printedRest, rfl⟩ := Option.map_eq_some'.mp success
    rcases beStep_pending next with ⟨rfl, rfl, same⟩ | step
    · simpa [same] using ih printedRest
    · rw [Pending.run_of_step_next step, ih printedRest]
      rfl

end Typed

open Typed

/-- Whenever `best` prints a composition with a nested composition among its parts and
also prints it with that one's parts spliced in, it prints the same. -/
theorem best_splice_agrees {w k : UInt32} {l₁ l₂ l₃ : List Format} {nested spliced : Sexpr}
    (printsNested : best w k (Format.compose (l₁ ++ [.compose l₂] ++ l₃)).toSexpr = some nested)
    (printsSpliced : best w k (Format.compose (l₁ ++ l₂ ++ l₃)).toSexpr = some spliced) :
    nested = spliced := by
  rw [best_encode] at printsNested printsSpliced
  obtain ⟨a, ranNested, rfl⟩ := Option.map_eq_some'.mp printsNested
  obtain ⟨b, ranSpliced, rfl⟩ := Option.map_eq_some'.mp printsSpliced
  have same : Pending.run w k [(0, .compose (l₁ ++ [.compose l₂] ++ l₃))] =
      Pending.run w k [(0, .compose (l₁ ++ l₂ ++ l₃))] := by
    rw [Pending.run_compose, Pending.run_compose,
      Pending.run_expand w k _ 0 l₂ (l₃.map (0, ·)) (l₁.map (0, ·)) (by simp)]
    simp
  have runs := (be_refines_run ranNested).symm.trans (same.trans (be_refines_run ranSpliced))
  rw [Option.some.inj runs]

theorem best_splice_text_agrees :
    best 80 0 (Format.compose ([.text "a"] ++ [.compose [.text "b"]] ++ [])).toSexpr =
        some (encodeOutput [.text "a", .text "b"]) ∧
      best 80 0 (Format.compose ([.text "a"] ++ [.text "b"] ++ [])).toSexpr =
        some (encodeOutput [.text "a", .text "b"]) ∧
      encodeOutput [.text "a", .text "b"] = encodeOutput [.text "a", .text "b"] := by
  have nested : best 80 0 (Format.compose ([.text "a"] ++ [.compose [.text "b"]] ++ [])).toSexpr =
      some (encodeOutput [.text "a", .text "b"]) := by
    rw [best_encode, Typed.best,
      be_of_beFuel 8 (some [.text "a", .text "b"]) (by decide)]
    rfl
  have spliced : best 80 0 (Format.compose ([.text "a"] ++ [.text "b"] ++ [])).toSexpr =
      some (encodeOutput [.text "a", .text "b"]) := by
    rw [best_encode, Typed.best,
      be_of_beFuel 5 (some [.text "a", .text "b"]) (by decide)]
    rfl
  exact ⟨nested, spliced, best_splice_agrees nested spliced⟩

/-- Splicing can turn a printed document into a failure: for a group `a`, `(a + b) + c`
prints, while `a + (b + c)` and `compose [a, b, c]` fail, where the COMPOSE holding the
group is expanded with nothing pending and the top of the stack is the empty rest. -/
theorem best_splice_fails :
    best 80 0 ((group (.text "a") + .text "b") + .text "c").toSexpr =
        some (encodeOutput [.text "a", .text "b", .text "c"]) ∧
      best 80 0 (group (.text "a") + (.text "b" + .text "c")).toSexpr = none ∧
      best 80 0 (Format.compose ([] ++ [group (.text "a"), .text "b"] ++ [.text "c"])).toSexpr =
        none := by
  simp only [best_encode, Typed.best]
  rw [be_of_beFuel 9 (some [.text "a", .text "b", .text "c"]) (by decide),
    be_of_beFuel 3 none (by decide),
    be_of_beFuel 2 none (by decide)]
  exact ⟨rfl, rfl, rfl⟩

end PrettyFormat
