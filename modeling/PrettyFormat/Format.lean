import PrettyFormat.Sexpr

/-! The documents of `util/format`. The typed `Format` is the tree the builders make
and `Format.toSexpr` its `m_value`, with the `(tag . payload)` nodes of the `sexpr_*`
helpers of format.h, which is not in src. -/

namespace PrettyFormat

/-- `format::format_kind`. -/
inductive FormatKind
  | nil | nest | compose | choice | line | text | colorBegin | colorEnd
  deriving Repr, DecidableEq

namespace FormatKind

def toInt : FormatKind → Int
  | nil => 0 | nest => 1 | compose => 2 | choice => 3
  | line => 4 | text => 5 | colorBegin => 6 | colorEnd => 7

/-- `static_cast<format_kind>` of a tag; any other int is `lean_unreachable`. -/
def ofInt : Int → Option FormatKind
  | 0 => some nil | 1 => some nest | 2 => some compose | 3 => some choice
  | 4 => some line | 5 => some text | 6 => some colorBegin | 7 => some colorEnd
  | _ => none

@[simp] theorem ofInt_toInt (kind : FormatKind) : ofInt kind.toInt = some kind := by
  cases kind <;> rfl

end FormatKind

/-- `format::format_color`. -/
inductive Color
  | red | green | orange | blue | pink | cyan | grey
  deriving Repr, DecidableEq

def Color.toInt : Color → Int
  | red => 0 | green => 1 | orange => 2 | blue => 3 | pink => 4 | cyan => 5 | grey => 6

/-- A document, as the `format` constructors and builders nest its nodes. -/
inductive Format where
  | nil
  | nest (amount : Int) (body : Format)
  | compose (parts : List Format)
  | choice (first second : Format)
  | line
  | text (value : String)
  | colorBegin (color : Color)
  | colorEnd
  deriving Repr

/-- `sexpr_kind(s)`: `static_cast<format_kind>(to_int(car(s)))`. -/
def sexprKind : Sexpr → Option FormatKind
  | .cons (.int tag) _ => FormatKind.ofInt tag
  | _ => none

def sexprNode (kind : FormatKind) (payload : Sexpr) : Sexpr := .cons (.int kind.toInt) payload

/-- `sexpr_text(v)`. -/
def sexprText (v : Sexpr) : Sexpr := sexprNode .text v

/-- `sexpr_compose(l)`. -/
def sexprCompose (l : Sexpr) : Sexpr := sexprNode .compose l

@[simp] theorem sexprKind_sexprNode (kind : FormatKind) (payload : Sexpr) :
    sexprKind (sexprNode kind payload) = some kind := by
  simp [sexprKind, sexprNode]

namespace Format

mutual
/-- The `m_value` of a document, built by the `sexpr_*` helpers of format.h. -/
def toSexpr : Format → Sexpr
  | nil => sexprNode .nil .nil
  | nest i x => sexprNode .nest (.cons (.int i) x.toSexpr)
  | compose l => sexprCompose (toSexprList l)
  | choice x y => sexprNode .choice (.cons x.toSexpr y.toSexpr)
  | line => sexprNode .line .nil
  | text t => sexprText (.string t)
  | colorBegin c => sexprNode .colorBegin (.int c.toInt)
  | colorEnd => sexprNode .colorEnd .nil

def toSexprList : List Format → Sexpr
  | [] => .nil
  | x :: l => .cons x.toSexpr (toSexprList l)
end

@[simp] theorem toSexprList_eq (l : List Format) :
    toSexprList l = Sexpr.ofList (l.map toSexpr) := by
  induction l with
  | nil => rfl
  | cons x l ih => simp [toSexprList, ih]

@[elab_as_elim]
theorem induction {motive : Format → Prop} (nil : motive nil)
    (nest : ∀ i x, motive x → motive (nest i x))
    (compose : ∀ l, (∀ x ∈ l, motive x) → motive (compose l))
    (choice : ∀ x y, motive x → motive y → motive (choice x y))
    (line : motive line) (text : ∀ t, motive (text t))
    (colorBegin : ∀ c, motive (colorBegin c)) (colorEnd : motive colorEnd)
    (f : Format) : motive f :=
  @Format.rec motive (fun l => ∀ x ∈ l, motive x) nil nest compose choice line text
    colorBegin colorEnd (fun _ absent => nomatch absent)
    (fun _ _ head tail x member => by
      rcases List.mem_cons.mp member with rfl | member
      · exact head
      · exact tail x member) f

private theorem map_injective_of_mem {f : Format → Sexpr} :
    ∀ {l l' : List Format}, (∀ x ∈ l, ∀ y, f x = f y → x = y) → l.map f = l'.map f → l = l'
  | [], [], _, _ => rfl
  | x :: l, y :: l', injective, same => by
    simp only [List.map_cons, List.cons.injEq] at same
    simp only [List.mem_cons, forall_eq_or_imp] at injective
    rw [injective.1 y same.1, map_injective_of_mem injective.2 same.2]

theorem toSexpr_injective : Function.Injective toSexpr := by
  intro f
  induction f using Format.induction with
  | nest i x ih =>
    intro g same
    cases g <;> simp [toSexpr, sexprText, sexprCompose, sexprNode, FormatKind.toInt] at same
    rw [same.1, ih same.2]
  | compose l ih =>
    intro g same
    cases g <;> simp [toSexpr, sexprText, sexprCompose, sexprNode, FormatKind.toInt] at same
    rw [map_injective_of_mem ih (Sexpr.ofList_injective same)]
  | choice x y ihx ihy =>
    intro g same
    cases g <;> simp [toSexpr, sexprText, sexprCompose, sexprNode, FormatKind.toInt] at same
    rw [ihx same.1, ihy same.2]
  | colorBegin c =>
    intro g same
    cases g <;> simp [toSexpr, sexprText, sexprCompose, sexprNode, FormatKind.toInt] at same
    cases c <;> rename_i c' <;> cases c' <;> simp_all [Color.toInt]
  | _ =>
    intro g same
    cases g <;> simp_all [toSexpr, sexprText, sexprCompose, sexprNode, FormatKind.toInt]

instance : DecidableEq Format := fun f g =>
  decidable_of_iff (f.toSexpr = g.toSexpr) toSexpr_injective.eq_iff

end Format

end PrettyFormat
