import Mathlib.Logic.Function.Basic

/-! The `sexpr` values of `util/sexpr` as format.cpp uses them. The accessors `car`,
`cdr` and `to_int` assert the shape they read; here a wrong shape gives `none`. -/

namespace PrettyFormat

/-- An `sexpr`; dotted pairs and improper lists are values too. -/
inductive Sexpr where
  | nil
  | int (value : Int)
  | string (value : String)
  | cons (head tail : Sexpr)
  deriving Repr, DecidableEq, Inhabited

namespace Sexpr

def size : Sexpr → Nat
  | cons head tail => 1 + head.size + tail.size
  | _ => 1

theorem one_le_size (s : Sexpr) : 1 ≤ s.size := by
  cases s <;> simp only [size] <;> omega

/-- `sexpr{x1, ..., xn}`: the proper list of the given values. -/
def ofList : List Sexpr → Sexpr
  | [] => nil
  | x :: xs => cons x (ofList xs)

@[simp] theorem ofList_nil : ofList [] = nil := rfl

@[simp] theorem ofList_cons (x : Sexpr) (xs : List Sexpr) :
    ofList (x :: xs) = cons x (ofList xs) := rfl

theorem ofList_injective : Function.Injective ofList := by
  intro xs ys same
  induction xs generalizing ys with
  | nil => cases ys with
    | nil => rfl
    | cons => cases same
  | cons x xs ih => cases ys with
    | nil => cases same
    | cons y ys =>
      simp only [ofList_cons, cons.injEq] at same
      rw [same.1, ih same.2]

/-- `sexpr(v, be(...))` for each emitted `v`, in order. -/
def prepend (out : List Sexpr) (rest : Sexpr) : Sexpr := out.foldr cons rest

@[simp] theorem prepend_ofList (out xs : List Sexpr) :
    prepend out (ofList xs) = ofList (out ++ xs) := by
  induction out with
  | nil => rfl
  | cons x out ih => simp [prepend, ← ih]

/-- `map` of `sexpr_funcs.h`; an improper list fails at its final atom. -/
def map (f : Sexpr → Sexpr) : Sexpr → Option Sexpr
  | nil => some nil
  | cons x xs => (map f xs).map (cons (f x))
  | _ => none

@[simp] theorem map_ofList (f : Sexpr → Sexpr) (xs : List Sexpr) :
    map f (ofList xs) = some (ofList (xs.map f)) := by
  induction xs with
  | nil => rfl
  | cons x xs ih => simp [map, ih]

end Sexpr

end PrettyFormat
