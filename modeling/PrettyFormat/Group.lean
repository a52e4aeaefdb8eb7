import PrettyFormat.Render

/-! `group(f)` is `choice(flatten(f), f)`. The flat alternative has no LINE, NEST or CHOICE
node, so `be` prints it on one line, and a group of a group lays out as the group. -/

namespace PrettyFormat

open Format

namespace Typed

/-- Every document in the pending list and on the stack is flat. -/
def FlatState (s : List (Int × Format)) (r : List (List (Int × Format))) : Prop :=
  (∀ entry ∈ s, entry.2.Flat) ∧ ∀ z ∈ r, ∀ entry ∈ z, entry.2.Flat

theorem beStep_flat {w k : UInt32} {s : List (Int × Format)} {r : List (List (Int × Format))}
    (flat : FlatState s r) :
    ∃ step, beStep w k s r = some step ∧
      ∀ out k' s' r', step = .next out k' s' r' → (∀ x ∈ out, x ≠ .line) ∧ FlatState s' r' := by
  obtain ⟨pending, stack⟩ := flat
  match s, r with
  | [], [] => exact ⟨_, rfl, fun _ _ _ _ h => nomatch h⟩
  | [], z :: r =>
    refine ⟨_, rfl, fun _ _ _ _ h => ?_⟩
    cases h
    simp only [List.mem_cons, forall_eq_or_imp] at stack
    exact ⟨by simp, stack.1, stack.2⟩
  | (i, f) :: z, r =>
    simp only [List.mem_cons, forall_eq_or_imp] at pending
    obtain ⟨head, rest⟩ := pending
    cases head with
    | compose parts =>
      refine ⟨_, rfl, fun _ _ _ _ h => ?_⟩
      cases h
      refine ⟨by simp, by simpa using parts, ?_⟩
      simp only [List.mem_cons, forall_eq_or_imp]
      exact ⟨rest, stack⟩
    | _ => exact ⟨_, rfl, fun _ _ _ _ h => by cases h; exact ⟨by simp, rest, stack⟩⟩

end Typed

open Typed

/-- `flatten` leaves no LINE, NEST or CHOICE node at any depth, so `be` prints the
flat alternative of a group at every width, column and indent, on one line. -/
theorem flatten_prints_one_line (f : Format) :
    flatten f.toSexpr = some f.flatten.toSexpr ∧ f.flatten.Flat ∧
      ∀ (w k : UInt32) (i : Int), ∃ printed : List Format,
        be w k (encodePending [(i, f.flatten)]) .nil = some (encodeOutput printed) ∧
          Format.line ∉ printed := by
  refine ⟨flatten_toSexpr f, flat_flatten f, fun w k i => ?_⟩
  have flat : FlatState [(i, f.flatten)] [] := ⟨by simpa using flat_flatten f, by simp⟩
  obtain ⟨printed, success, noLine⟩ :=
    be_of_invariant (· ≠ .line) FlatState (fun _ _ _ flat => beStep_flat flat) flat
  exact ⟨printed, by rw [← encodeStack_nil, be_encode, success]; rfl, fun line => noLine _ line rfl⟩

theorem beStep_choice (w k : UInt32) (i : Int) (x y z r : Sexpr) :
    beStep w k (.cons (.cons (.int i) (sexprNode .choice (.cons x y))) z) r =
      (spaceUptoLineBreak x r).bind fun (m, _) =>
        if inIntRange (castInt w - castInt k) then
          some (.next [] k (.cons (.cons (.int i) (if fits w k m then x else y)) z) r)
        else none := by
  simp only [beStep, sexprNode, sexprKind, FormatKind.ofInt_toInt]
  congr 1
  funext ⟨m, _⟩
  by_cases fit : fits w k m <;> simp [fit]

theorem be_choice (w k : UInt32) (i : Int) (x y z r : Sexpr) :
    be w k (.cons (.cons (.int i) (sexprNode .choice (.cons x y))) z) r =
      (spaceUptoLineBreak x r).bind fun (m, _) =>
        if inIntRange (castInt w - castInt k) then
          be w k (.cons (.cons (.int i) (if fits w k m then x else y)) z) r
        else none := by
  cases measured : spaceUptoLineBreak x r with
  | none => exact be_of_beStep_none (by rw [beStep_choice, measured]; rfl)
  | some result =>
    by_cases range : inIntRange (castInt w - castInt k)
    · have step : beStep w k (.cons (.cons (.int i) (sexprNode .choice (.cons x y))) z) r =
          some (.next [] k (.cons (.cons (.int i) (if fits w k result.1 then x else y)) z) r) := by
        simp [beStep_choice, measured, range]
      rw [be_of_beStep_next step]
      simp only [Option.bind_some, range, if_true]
      exact Option.map_id'
    · rw [be_of_beStep_none (by simp [beStep_choice, measured, range])]
      simp [range]

/-- A group of a group lays out as the group, wherever `be` meets it. -/
theorem be_group_group (f : Format) (w k : UInt32) (i : Int) (z r : Sexpr) :
    be w k (.cons (.cons (.int i) (group (group f)).toSexpr) z) r =
      be w k (.cons (.cons (.int i) (group f).toSexpr) z) r := by
  have flat : (group f).flatten = f.flatten := flatten_flatten f
  rw [group_toSexpr (group f), be_choice, flat, group_toSexpr f, be_choice]
  cases measured : spaceUptoLineBreak f.flatten.toSexpr r with
  | none => rfl
  | some result =>
    by_cases range : inIntRange (castInt w - castInt k) <;>
      by_cases fit : fits w k result.1 <;> simp [range, fit, measured, be_choice]

/-! ### Layout only breaks lines -/

namespace Format

/-- A document whose every CHOICE has two alternatives with the same flattening. -/
inductive ChoicesAlike : Format → Prop
  | nil : ChoicesAlike nil
  | nest {j : Int} {x : Format} : ChoicesAlike x → ChoicesAlike (nest j x)
  | compose {l : List Format} : (∀ x ∈ l, ChoicesAlike x) → ChoicesAlike (compose l)
  | choice {x y : Format} : x.flatten = y.flatten → ChoicesAlike x → ChoicesAlike y →
      ChoicesAlike (choice x y)
  | line : ChoicesAlike line
  | text {t : String} : ChoicesAlike (text t)
  | colorBegin {c : Color} : ChoicesAlike (colorBegin c)
  | colorEnd : ChoicesAlike colorEnd

theorem Flat.choicesAlike {f : Format} (flat : f.Flat) : f.ChoicesAlike := by
  induction flat with
  | compose _ ih => exact .compose ih
  | nil => exact .nil
  | text => exact .text
  | colorBegin => exact .colorBegin
  | colorEnd => exact .colorEnd

theorem ChoicesAlike.group {f : Format} (alike : f.ChoicesAlike) :
    (PrettyFormat.group f).ChoicesAlike :=
  .choice (flatten_flatten f) (flat_flatten f).choicesAlike alike

theorem ChoicesAlike.resolves_flatten {f f' : Format} (alike : f.ChoicesAlike)
    (resolved : Resolves f f') : f'.flatten = f.flatten := by
  induction alike generalizing f' with
  | nest _ ih =>
    cases resolved with
    | nest body =>
      have flattened := ih body
      exact flattened
  | compose parts ih =>
    cases resolved with
    | compose each =>
      simp only [flatten, flattenList_eq, compose.injEq]
      clear parts
      induction each with
      | nil => rfl
      | cons head _ ihl =>
        simp only [List.mem_cons, forall_eq_or_imp] at ih
        rw [List.map_cons, List.map_cons, ih.1 head, ihl ih.2]
  | choice same _ _ ihx ihy =>
    cases resolved with
    | first body => exact ihx body
    | second body => exact (ihy body).trans same.symm
  | nil => cases resolved; rfl
  | line => cases resolved; rfl
  | text => cases resolved; rfl
  | colorBegin => cases resolved; rfl
  | colorEnd => cases resolved; rfl

theorem Flat.render_eq {f : Format} (flat : f.Flat) (i i' : Int) : render i f = render i' f := by
  induction flat with
  | compose _ ih => simp only [render, renderList_eq, List.map_congr_left ih]
  | _ => rfl

end Format

/-- The printed nodes with each LINE that is followed by a TEXT of spaces, its
indentation, turned back into the single space that `flatten` writes for a LINE. -/
def unbreak : List Format → List Format
  | [] => []
  | .line :: tail@(.text s :: out) =>
    if s = spaces s.length then .text " " :: unbreak out else .line :: unbreak tail
  | x :: out => x :: unbreak out

theorem unbreak_render (f : Format) :
    ∀ (i : Int) (rest : List Format), unbreak (render i f ++ rest) = render i f.flatten ++ unbreak rest := by
  induction f using Format.induction with
  | nest j x ih =>
    intro i rest
    rw [render, ih, Format.flatten, (flat_flatten x).render_eq (i + j) i]
  | compose l ih =>
    intro i rest
    simp only [render, renderList_eq, Format.flatten, flattenList_eq, List.map_map]
    induction l with
    | nil => rfl
    | cons x l ihl =>
      simp only [List.mem_cons, forall_eq_or_imp] at ih
      simp only [List.map_cons, List.flatten_cons, List.append_assoc, Function.comp_apply, ih.1,
        ihl ih.2]
  | choice x y ihx => exact ihx
  | _ => intro i rest; simp [render, Format.flatten, unbreak]

end PrettyFormat
