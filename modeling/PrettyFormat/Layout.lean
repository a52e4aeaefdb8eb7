import PrettyFormat.Render

/-! `layout` prints one node of the list `best` returns, `layout_list` the list, and `pretty`
is `best` from column 0 followed by `layout_list`. `layout` has no case for NEST, CHOICE or
COMPOSE, and `be` emits none, so `pretty` fails exactly when `best` does. -/

namespace PrettyFormat

/-- What `layout` writes for COLOR_BEGIN `c`: `"\e[" << (31 + c % 7) << "m"`. -/
def colorEscape (c : Int) : String := "\x1b[" ++ toString (31 + c.tmod 7) ++ "m"

/-- `layout(out, s)`: the text written for one node, `none` at `lean_unreachable` or where
`to_int` meets a non-int. -/
def layout : Sexpr → Option String
  | .cons (.int tag) v =>
    match FormatKind.ofInt tag, v with
    | some .nil, _ => some ""
    | some .line, _ => some "\n"
    | some .text, .string t => some t
    | some .colorBegin, .int c => some (colorEscape c)
    | some .colorEnd, _ => some "\x1b[0m"
    | _, _ => none
  | _ => none

/-- `layout_list(out, s)`: `layout` on each node of the list, in order. -/
def layoutList : Sexpr → Option String
  | .nil => some ""
  | .cons s rest => do pure ((← layout s) ++ (← layoutList rest))
  | _ => none

/-- `pretty(out, w, f)`: the text written for `f` at width `w`. -/
def pretty (w : UInt32) (f : Format) : Option String := (best w 0 f.toSexpr).bind layoutList

/-- A node `layout` has a case for: anything but a NEST, COMPOSE or CHOICE. -/
def Format.isLeaf : Format → Bool
  | .nest _ _ | .compose _ | .choice _ _ => false
  | _ => true

theorem layout_toSexpr_isSome (x : Format) : (layout x.toSexpr).isSome = x.isLeaf := by
  cases x <;> rfl

theorem layoutList_encodeOutput_isSome (out : List Format) :
    (layoutList (encodeOutput out)).isSome ↔ ∀ x ∈ out, x.isLeaf := by
  induction out with
  | nil => simp [encodeOutput, layoutList]
  | cons x out ih =>
    simp only [encodeOutput, List.map_cons, Sexpr.ofList_cons, layoutList, List.mem_cons,
      forall_eq_or_imp] at ih ⊢
    rw [← ih, ← layout_toSexpr_isSome]
    cases layout x.toSexpr <;> cases layoutList (Sexpr.ofList (out.map Format.toSexpr)) <;> simp

namespace Typed

theorem beStep_isLeaf {w k k' : UInt32} {s s' : List (Int × Format)}
    {r r' : List (List (Int × Format))} {out : List Format}
    (next : beStep w k s r = some (.next out k' s' r')) : ∀ x ∈ out, x.isLeaf := by
  match s, r with
  | [], _ :: _ => cases next; simp
  | (i, f) :: z, r =>
    cases f with
    | line | nest _ _ =>
      simp only [beStep] at next
      split at next <;> cases next
      simp [Format.isLeaf]
    | choice x y => cases beStep_choice_eq_some next; simp
    | _ => cases next; simp [Format.isLeaf]

theorem be_isLeaf {w k : UInt32} {s : List (Int × Format)} {r : List (List (Int × Format))}
    {printed : List Format} (success : be w k s r = some printed) : ∀ x ∈ printed, x.isLeaf := by
  induction k, s, r using be.induct w generalizing printed with
  | case1 k s r failed => simp [be_of_beStep_none failed] at success
  | case2 k s r done =>
    rw [be_of_beStep_done done] at success
    cases success
    simp
  | case3 k s r out k' s' r' next ih =>
    rw [be_of_beStep_next next] at success
    obtain ⟨rest, printedRest, rfl⟩ := Option.map_eq_some'.mp success
    simpa [or_imp, forall_and] using ⟨beStep_isLeaf next, ih printedRest⟩

end Typed

/-- `pretty` fails exactly when `best` does: `layout_list` never reaches `lean_unreachable`
on what `best` returns. -/
theorem pretty_eq_none_iff (w : UInt32) (f : Format) :
    pretty w f = none ↔ best w 0 f.toSexpr = none := by
  rw [pretty, best_encode]
  cases printed : Typed.best w 0 f with
  | none => simp
  | some out =>
    have leaves := (layoutList_encodeOutput_isSome out).mpr (Typed.be_isLeaf printed)
    simpa [Option.isSome_iff_ne_none] using leaves

/-! ### The text `pretty` writes -/

namespace Format

mutual
/-- The text a resolved document writes at indent `i`, each LINE as a newline and `i`
spaces. -/
def written (i : Int) : Format → String
  | nil => ""
  | nest j x => written (i + j) x
  | compose l => writtenList i l
  | choice x _ => written i x
  | line => "\n" ++ spaces i.toNat
  | text t => t
  | colorBegin c => colorEscape c.toInt
  | colorEnd => "\x1b[0m"

def writtenList (i : Int) : List Format → String
  | [] => ""
  | x :: l => written i x ++ writtenList i l
end

end Format

open Format

theorem layoutList_encodeOutput_cons (x : Format) (out : List Format) :
    layoutList (encodeOutput (x :: out)) =
      (layout x.toSexpr).bind fun s => (layoutList (encodeOutput out)).bind fun s' => some (s ++ s') :=
  rfl

theorem layoutList_encodeOutput_append {a b : List Format} {sa sb : String}
    (first : layoutList (encodeOutput a) = some sa) (second : layoutList (encodeOutput b) = some sb) :
    layoutList (encodeOutput (a ++ b)) = some (sa ++ sb) := by
  induction a generalizing sa with
  | nil => cases first; simpa using second
  | cons x a ih =>
    rw [layoutList_encodeOutput_cons] at first
    obtain ⟨sx, laid, first⟩ := Option.bind_eq_some.mp first
    obtain ⟨sr, rest, first⟩ := Option.bind_eq_some.mp first
    cases first
    simp [List.cons_append, layoutList_encodeOutput_cons, laid, ih rest, String.append_assoc]

theorem layoutList_render (f : Format) : ∀ i, layoutList (encodeOutput (render i f)) = some (f.written i) := by
  induction f using Format.induction with
  | nest j x ih => exact fun i => ih (i + j)
  | compose l ih =>
    intro i
    induction l with
    | nil => rfl
    | cons x l ihl =>
      simp only [List.mem_cons, forall_eq_or_imp] at ih
      exact layoutList_encodeOutput_append (ih.1 i) (ihl ih.2)
  | choice x y ihx => exact ihx
  | nil => intro i; rfl
  | line => intro i; exact congrArg (fun s => some ("\n" ++ s)) (String.append_empty _)
  | _ => intro i; exact congrArg some (String.append_empty _)

/-- Whatever `pretty` writes is the text of a resolution of the document, each LINE
written as a newline and the spaces of its indent. -/
theorem pretty_writes_resolution {w : UInt32} {f : Format} {str : String}
    (success : pretty w f = some str) : ∃ f', Resolves f f' ∧ str = f'.written 0 := by
  rw [pretty, best_encode] at success
  obtain ⟨printed, typed, laid⟩ := Option.bind_eq_some.mp success
  obtain ⟨out, ran, rfl⟩ := Option.map_eq_some'.mp typed
  obtain ⟨f', resolved, rfl⟩ := Typed.best_resolves ran
  rw [layoutList_render] at laid
  exact ⟨f', resolved, (Option.some.inj laid).symm⟩

theorem pretty_group_writes :
    pretty 80 (group (.text "a" + .line + .text "b")) = some "a b" ∧
      ∃ f', Resolves (group (.text "a" + .line + .text "b")) f' ∧ "a b" = f'.written 0 := by
  have success : pretty 80 (group (.text "a" + .line + .text "b")) = some "a b" := by
    rw [pretty, best_encode, Typed.best,
      Typed.be_of_beFuel 10 (some [.text "a", .text " ", .text "b"]) (by decide)]
    rfl
  exact ⟨success, pretty_writes_resolution success⟩

end PrettyFormat
