import PrettyFormat.Flatten

/-! The builders of format.cpp. `nest`, `line` and `choice` are constructors of `Format`;
`format{f1, ..., fn}` of format.h composes its arguments left to right, two at a time. -/

namespace PrettyFormat

def compose (f1 f2 : Format) : Format := .compose [f1, f2]

/-- `format{f1, ..., fn}`: `((f1 + f2) + ...) + fn`, each `+` a two-part COMPOSE. -/
def Format.ofList : List Format → Format
  | [] => .nil
  | f :: rest => rest.foldl PrettyFormat.compose f

/-- `operator+`: `format{f1, f2}`. -/
instance : Add Format := ⟨fun f1 f2 => Format.ofList [f1, f2]⟩

/-- `operator^`: `format{f1, format(" "), f2}`. -/
instance : HPow Format Format Format := ⟨fun f1 f2 => Format.ofList [f1, .text " ", f2]⟩

theorem Format.add_eq (f1 f2 : Format) : f1 + f2 = .compose [f1, f2] := rfl

theorem Format.pow_eq (f1 f2 : Format) : f1 ^ f2 = .compose [.compose [f1, .text " "], f2] := rfl

/-- `highlight(f, c)`: `sexpr_highlight`, `f` between COLOR_BEGIN and COLOR_END. -/
def highlight (f : Format) (c : Color) : Format := .compose [.colorBegin c, f, .colorEnd]

/-- `group(f)`: `choice(format::flatten(f), f)`. -/
def group (f : Format) : Format := .choice f.flatten f

def above (f1 f2 : Format) : Format := .ofList [f1, .line, f2]

def bracket (l : String) (x : Format) (r : String) : Format :=
  group (.ofList [.text l, .nest 2 (compose .line x), .line, .text r])

def paren (x : Format) : Format := bracket "(" x ")"

/-- `wrap(f1, f2)`: `x <> (text " " :<|> line) <> y`. -/
def wrap (f1 f2 : Format) : Format := .ofList [f1, .choice (.text " ") .line, f2]

theorem group_toSexpr (f : Format) :
    (group f).toSexpr = sexprNode .choice (.cons f.flatten.toSexpr f.toSexpr) := rfl

end PrettyFormat
