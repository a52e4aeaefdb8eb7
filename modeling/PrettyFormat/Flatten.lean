import PrettyFormat.Format

/-! `format::flatten`, on sexprs as format.cpp writes it and on documents, and the
facts `group` rests on: a flattened document has no LINE, NEST or CHOICE node, and
flattening it again changes nothing. -/

namespace PrettyFormat

mutual
/-- `format::flatten(sexpr)`, a switch on `sexpr_kind(s)`. -/
def flatten : Sexpr → Option Sexpr
  | .cons (.int tag) p =>
    match FormatKind.ofInt tag, p with
    | some .nil, _ => some (.cons (.int tag) p)
    -- `flatten(sexpr_nest_s(s))`, with `sexpr_nest_s(s) = cdr(cdr(s))`
    | some .nest, .cons _ x => flatten x
    -- `sexpr_compose(map(sexpr_compose_list(s), flatten))`
    | some .compose, l => (flattenList l).map sexprCompose
    -- `flatten(sexpr_choice_1(s))`, with `sexpr_choice_1(s) = car(cdr(s))`
    | some .choice, .cons x _ => flatten x
    | some .line, _ => some (sexprText (.string " "))
    | some .text, _ | some .colorBegin, _ | some .colorEnd, _ => some (.cons (.int tag) p)
    | _, _ => none
  | _ => none

/-- `map(l, flatten)` over the parts of a COMPOSE. -/
def flattenList : Sexpr → Option Sexpr
  | .nil => some .nil
  | .cons x l => do pure (.cons (← flatten x) (← flattenList l))
  | _ => none
end

namespace Format

mutual
/-- `format::flatten` on documents. -/
def flatten : Format → Format
  | nil => nil
  | nest _ x => x.flatten
  | compose l => compose (flattenList l)
  | choice x _ => x.flatten
  | line => text " "
  | text t => text t
  | colorBegin c => colorBegin c
  | colorEnd => colorEnd

def flattenList : List Format → List Format
  | [] => []
  | x :: l => x.flatten :: flattenList l
end

@[simp] theorem flattenList_eq (l : List Format) : flattenList l = l.map flatten := by
  induction l with
  | nil => rfl
  | cons x l ih => simp [flattenList, ih]

/-- A document with no LINE, NEST or CHOICE node at any depth. -/
inductive Flat : Format → Prop
  | nil : Flat nil
  | compose : (∀ x ∈ l, Flat x) → Flat (compose l)
  | text : Flat (text t)
  | colorBegin : Flat (colorBegin c)
  | colorEnd : Flat colorEnd

theorem flat_flatten (f : Format) : f.flatten.Flat := by
  induction f using Format.induction with
  | nest _ _ ih => exact ih
  | compose l ih => simpa [flatten] using Flat.compose (by simpa using ih)
  | choice _ _ ih _ => exact ih
  | nil => exact .nil
  | line => exact .text
  | text => exact .text
  | colorBegin => exact .colorBegin
  | colorEnd => exact .colorEnd

theorem Flat.flatten_eq {f : Format} (flat : f.Flat) : f.flatten = f := by
  induction flat with
  | compose _ ih => simp [flatten, List.map_congr_left ih]
  | _ => rfl

theorem flatten_flatten (f : Format) : f.flatten.flatten = f.flatten :=
  (flat_flatten f).flatten_eq

end Format

private theorem flattenList_ofList {l : List Format}
    (parts : ∀ x ∈ l, flatten x.toSexpr = some x.flatten.toSexpr) :
    flattenList (Sexpr.ofList (l.map Format.toSexpr)) =
      some (Sexpr.ofList (l.map (Format.toSexpr ∘ Format.flatten))) := by
  induction l with
  | nil => rfl
  | cons x l ih =>
    simp only [List.mem_cons, forall_eq_or_imp] at parts
    simp [flattenList, parts.1, ih parts.2]

theorem flatten_toSexpr (f : Format) : flatten f.toSexpr = some f.flatten.toSexpr := by
  induction f using Format.induction with
  | compose l ih =>
    simp [flatten, Format.toSexpr, Format.flatten, sexprCompose, flattenList_ofList ih]
  | _ => simp_all [flatten, Format.toSexpr, Format.flatten, sexprText, sexprNode]

end PrettyFormat
