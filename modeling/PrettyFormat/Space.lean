import PrettyFormat.Builders
import Mathlib.Data.UInt

/-! The width measure of `be`'s CHOICE case on sexprs, and what it computes on the values
`be` hands it: `be` passes its stack, a list of pending lists, where the measure reads
one pending list of `(indent . format)` pairs. -/

namespace PrettyFormat

mutual
/-- `format::space_upto_line_break_list(r, found)`; `found` is false on entry, as asserted. -/
def spaceUptoLineBreakList : Sexpr → Option (UInt32 × Bool)
  | .nil => some (0, true)
  -- `space_upto_line_break(cdr(car(r)), cdr(r), found)`
  | .cons (.cons _ x) r => spaceUptoLineBreak x r
  | _ => none
termination_by r => r.size
decreasing_by all_goals simp only [Sexpr.size]; omega

/-- `format::space_upto_line_break(s, r, found)`, returning `found` with the width. -/
def spaceUptoLineBreak : Sexpr → Sexpr → Option (UInt32 × Bool)
  | .nil, _ => some (0, true)
  | .cons (.int tag) p, r =>
    match FormatKind.ofInt tag, p with
    | some .nil, _ | some .colorBegin, _ | some .colorEnd, _ => spaceUptoLineBreakList r
    | some .compose, list => do
      let (len, found) ← spaceUptoLineBreakLoop list 0 false
      if found then some (len, true)
      else (spaceUptoLineBreakList r).map fun (rest, found) => (len + rest, found)
    -- `x = sexpr_nest_s(s)`, measured with the rest `nil()`
    | some .nest, .cons _ x => do
      let (len, found) ← spaceUptoLineBreak x .nil
      if found then some (len, true)
      else (spaceUptoLineBreakList r).map fun (rest, found) => (len + rest, found)
    -- `sexpr_text_length(s) + space_upto_line_break_list(r, found)`
    | some .text, .string t =>
      (spaceUptoLineBreakList r).map fun (rest, found) => (UInt32.ofNat t.length + rest, found)
    | some .line, _ => some (0, true)
    -- `x = sexpr_choice_1(s)`
    | some .choice, .cons x _ => spaceUptoLineBreak x r
    | _, _ => none
  | _, _ => none
termination_by s r => s.size + r.size
decreasing_by all_goals simp only [Sexpr.size]; omega

/-- The `while` loop of the COMPOSE case, each part measured with the rest `nil()`. -/
def spaceUptoLineBreakLoop : Sexpr → UInt32 → Bool → Option (UInt32 × Bool)
  | _, len, true => some (len, true)
  | .nil, len, false => some (len, false)
  | .cons h list, len, false => do
    let (n, found) ← spaceUptoLineBreak h .nil
    spaceUptoLineBreakLoop list (len + n) found
  | _, _, false => none
termination_by list => list.size
decreasing_by all_goals have := list.one_le_size; simp only [Sexpr.size]; omega
end

inductive SpaceArgs
  | list (r : Sexpr)
  | format (s r : Sexpr)
  | loop (list : Sexpr)

/-- `SpaceCall b a`: a call with the arguments `a` can make the call with `b`. -/
inductive SpaceCall : SpaceArgs → SpaceArgs → Prop
  | listFormat : SpaceCall (.format x r) (.list (.cons (.cons p x) r))
  | formatList : SpaceCall (.list r) (.format (.cons tag p) r)
  | formatLoop : SpaceCall (.loop p) (.format (.cons tag p) r)
  | formatNest : SpaceCall (.format x .nil) (.format (.cons tag (.cons j x)) r)
  | formatChoice : SpaceCall (.format x r) (.format (.cons tag (.cons x y)) r)
  | loopFormat : SpaceCall (.format h .nil) (.loop (.cons h list))
  | loopNext : SpaceCall (.loop list) (.loop (.cons h list))

def SpaceArgs.size : SpaceArgs → Nat
  | .list r => r.size
  | .format s r => s.size + r.size
  | .loop parts => parts.size

theorem SpaceCall.size_lt {b a : SpaceArgs} (call : SpaceCall b a) : b.size < a.size := by
  cases call
  case loopFormat parts => have := parts.one_le_size; simp only [SpaceArgs.size, Sexpr.size]; omega
  all_goals simp only [SpaceArgs.size, Sexpr.size]; omega

theorem spaceCall_wellFounded : WellFounded SpaceCall :=
  Subrelation.wf (fun call => call.size_lt) (InvImage.wf SpaceArgs.size wellFounded_lt)

/-- The width `space_upto_line_break` counts inside a document before it reads the rest,
and whether it stopped there (`found`). -/
def Format.lead : Format → UInt32 × Bool
  | .nil | .colorBegin _ | .colorEnd => (0, false)
  | .compose [] => (0, false)
  | .compose (x :: _) => (x.lead.1, true)
  | .nest _ x => (x.lead.1, true)
  | .text t => (UInt32.ofNat t.length, false)
  | .line => (0, true)
  | .choice x _ => x.lead

/-! The typed state of `be`: `(indent, document)` entries and a stack of pending lists. -/

namespace Typed

def encodeEntry (entry : Int × Format) : Sexpr := .cons (.int entry.1) entry.2.toSexpr

def encodePending (s : List (Int × Format)) : Sexpr := Sexpr.ofList (s.map encodeEntry)

def encodeStack (r : List (List (Int × Format))) : Sexpr := Sexpr.ofList (r.map encodePending)

@[simp] theorem encodeStack_nil : encodeStack [] = .nil := rfl

/-- `space_upto_line_break_list` on be's stack: `cdr(car(r))` is nil, and the count stops,
exactly when the top pending list has one entry; otherwise it fails. -/
def spaceUptoLineBreakList : List (List (Int × Format)) → Option UInt32
  | [] => some 0
  | [_] :: _ => some 0
  | _ => none

theorem spaceUptoLineBreakList_eq_none_iff {r : List (List (Int × Format))} :
    spaceUptoLineBreakList r = none ↔ ∃ top rest, r = top :: rest ∧ top.length ≠ 1 := by
  match r with
  | [] | [_] :: _ | [] :: _ | (_ :: _ :: _) :: _ => simp [spaceUptoLineBreakList]

def spaceUptoLineBreak (x : Format) (r : List (List (Int × Format))) : Option UInt32 :=
  if x.lead.2 then some x.lead.1 else (spaceUptoLineBreakList r).map (x.lead.1 + ·)

theorem spaceUptoLineBreak_eq_none_iff {x : Format} {r : List (List (Int × Format))} :
    spaceUptoLineBreak x r = none ↔ x.lead.2 = false ∧ ∃ top rest, r = top :: rest ∧ top.length ≠ 1 := by
  rw [← spaceUptoLineBreakList_eq_none_iff]
  cases lead : x.lead.2 <;> simp [spaceUptoLineBreak, lead]

@[simp] theorem spaceUptoLineBreak_nil (x : Format) : spaceUptoLineBreak x [] = some x.lead.1 := by
  simp [spaceUptoLineBreak, spaceUptoLineBreakList]

/-- The measure never adds a width from the stack: it is `x.lead.1`, or it fails. -/
theorem spaceUptoLineBreak_eq_some {x : Format} {r : List (List (Int × Format))} {m : UInt32}
    (measured : spaceUptoLineBreak x r = some m) : m = x.lead.1 := by
  unfold spaceUptoLineBreak spaceUptoLineBreakList at measured
  split at measured
  · exact (Option.some.inj measured).symm
  · split at measured <;> simp_all

end Typed

open Typed

theorem spaceUptoLineBreakList_encode (r : List (List (Int × Format))) :
    spaceUptoLineBreakList (encodeStack r) = (Typed.spaceUptoLineBreakList r).map (·, true) := by
  match r with
  | [] | [] :: _ | [_] :: _ => simp [encodeStack, encodePending, spaceUptoLineBreakList,
      spaceUptoLineBreak, Typed.spaceUptoLineBreakList]
  | (_ :: _ :: _) :: _ => simp [encodeStack, encodePending, encodeEntry, spaceUptoLineBreakList,
      spaceUptoLineBreak, Typed.spaceUptoLineBreakList]

theorem spaceUptoLineBreak_encode (x : Format) (r : List (List (Int × Format))) :
    spaceUptoLineBreak x.toSexpr (encodeStack r) = (Typed.spaceUptoLineBreak x r).map (·, true) := by
  induction x using Format.induction generalizing r with
  | compose l ih =>
    cases l with
    | nil => simp [Format.toSexpr, sexprCompose, sexprNode, spaceUptoLineBreak,
        spaceUptoLineBreakLoop, Typed.spaceUptoLineBreak, Format.lead, spaceUptoLineBreakList_encode,
        Function.comp_def]
    | cons x l =>
      have first := ih x (List.mem_cons_self x l) []
      simp only [Typed.spaceUptoLineBreak_nil, Option.map_some', encodeStack_nil] at first
      simp [Format.toSexpr, sexprCompose, sexprNode, spaceUptoLineBreak, spaceUptoLineBreakLoop,
        first, Typed.spaceUptoLineBreak, Format.lead]
  | nest i x ih =>
    have inner := ih []
    simp only [Typed.spaceUptoLineBreak_nil, Option.map_some', encodeStack_nil] at inner
    simp [Format.toSexpr, sexprNode, spaceUptoLineBreak, inner, Typed.spaceUptoLineBreak,
      Format.lead]
  | choice x y ih _ =>
    simp [Format.toSexpr, sexprNode, spaceUptoLineBreak, ih, Typed.spaceUptoLineBreak, Format.lead]
  | _ =>
    simp [Format.toSexpr, sexprNode, sexprText, spaceUptoLineBreak, Typed.spaceUptoLineBreak,
      Format.lead, spaceUptoLineBreakList_encode, Function.comp_def]

/-! ### The measure on its documented input -/

/-- The width the measure counts along a stream: each lead, until one stops the count. -/
def Format.leadStream : List Format → UInt32
  | [] => 0
  | x :: rest => if x.lead.2 then x.lead.1 else x.lead.1 + leadStream rest

theorem spaceUptoLineBreak_toSexpr (x : Format) (r : Sexpr) :
    spaceUptoLineBreak x.toSexpr r = if x.lead.2 then some (x.lead.1, true)
      else (spaceUptoLineBreakList r).map fun (rest, found) => (x.lead.1 + rest, found) := by
  induction x using Format.induction generalizing r with
  | compose l ih =>
    cases l with
    | nil => simp [Format.toSexpr, sexprCompose, sexprNode, spaceUptoLineBreak,
        spaceUptoLineBreakLoop, Format.lead]
    | cons x l =>
      have first := ih x (List.mem_cons_self x l) .nil
      split at first <;>
        simp_all [Format.toSexpr, sexprCompose, sexprNode, spaceUptoLineBreak,
          spaceUptoLineBreakLoop, spaceUptoLineBreakList, Format.lead]
  | nest i x ih =>
    have inner := ih .nil
    split at inner <;>
      simp_all [Format.toSexpr, sexprNode, spaceUptoLineBreak, spaceUptoLineBreakList, Format.lead]
  | choice x y ih _ => simp [Format.toSexpr, sexprNode, spaceUptoLineBreak, ih, Format.lead]
  | _ => simp [Format.toSexpr, sexprNode, sexprText, spaceUptoLineBreak, Format.lead]

theorem spaceUptoLineBreakList_encodePending (s : List (Int × Format)) :
    spaceUptoLineBreakList (Typed.encodePending s) =
      some (Format.leadStream (s.map Prod.snd), true) := by
  induction s with
  | nil => simp [Typed.encodePending, spaceUptoLineBreakList, Format.leadStream]
  | cons entry s ih =>
    simp only [Typed.encodePending, List.map_cons, Sexpr.ofList_cons, Typed.encodeEntry] at ih ⊢
    rw [spaceUptoLineBreakList, spaceUptoLineBreak_toSexpr, ih, Format.leadStream]
    split <;> rfl

/-- On a document and a list of `(indent . format)` pairs the measure never fails: it
counts the leads of `x` and of `r`'s documents until one stops the count. -/
theorem spaceUptoLineBreak_pairs (x : Format) (s : List (Int × Format)) :
    spaceUptoLineBreak x.toSexpr (Typed.encodePending s) =
      some (Format.leadStream (x :: s.map Prod.snd), true) := by
  rw [spaceUptoLineBreak_toSexpr, spaceUptoLineBreakList_encodePending, Format.leadStream]
  split <;> rfl

end PrettyFormat
