import PrettyFormat.Space

/-! `format::be` and `format::best`. Each call of `be` makes at most one recursive call
and conses nodes on its result: `beStep` is the body up to that call, and `be` runs it. -/

namespace PrettyFormat

/-- One call of `be` short of its recursive call: the end, or `be(w, k, s, r)` with `out`
consed in front of its result. -/
inductive BeStep where
  | done
  | next (out : List Sexpr) (k : UInt32) (s r : Sexpr)

/-- The test `d >= 0` of the CHOICE case: `int(w) - int(k) - space_upto_line_break(x, r, found)`
taken modulo 2^32 and read back as an int. -/
def fits (w k m : UInt32) : Bool := (w - k - m).toNat < 2 ^ 31

/-- `static_cast<int>(u)`: the bits of an unsigned read as a two's complement int. -/
def castInt (u : UInt32) : Int := if u.toNat < 2 ^ 31 then u.toNat else u.toNat - 2 ^ 32

/-- Whether an int result is a C++ int; signed overflow, undefined, is a failure here. -/
def inIntRange (n : Int) : Bool := decide (-2 ^ 31 ≤ n ∧ n < 2 ^ 31)

/-- `std::string(i, ' ')`. -/
def spaces (i : Nat) : String := String.mk (List.replicate i ' ')

@[simp] theorem spaces_length (n : Nat) : (spaces n).length = n := by
  simp [spaces, String.length]

/-- The body of `format::be(w, k, s, r)` up to its recursive call. -/
def beStep (w k : UInt32) : Sexpr → Sexpr → Option BeStep
  | .nil, .nil => some .done
  -- `be(w, k, car(r), cdr(r))`
  | .nil, .cons z r => some (.next [] k z r)
  -- `h = car(s)`, `z = cdr(s)`, `i = to_int(car(h))`, `v = cdr(h)`
  | .cons (.cons (.int i) v) z, r =>
    match sexprKind v with
    | some .nil => some (.next [] k z r)
    | some .colorBegin | some .colorEnd => some (.next [v] k z r)
    -- `map(sexpr_compose_list(v), [i](s) { return sexpr(i, s); })`, and `sexpr(z, r)`
    | some .compose =>
      match v with
      | .cons _ list => (list.map (.cons (.int i))).map fun list' => .next [] k list' (.cons z r)
      | _ => none
    -- `j = sexpr_nest_i(v) = to_int(car(cdr(v)))`, `x = sexpr_nest_s(v) = cdr(cdr(v))`
    | some .nest =>
      match v with
      | .cons _ (.cons (.int j) x) =>
        if inIntRange (i + j) then some (.next [] k (.cons (.cons (.int (i + j)) x) z) r) else none
      | _ => none
    | some .text =>
      match v with
      | .cons _ (.string t) => some (.next [v] (k + UInt32.ofNat t.length) z r)
      | _ => none
    -- `std::string(i, ' ')` throws for a negative count; `be(w, i, z, r)`
    | some .line =>
      if i < 0 then none
      else some (.next [v, sexprText (.string (spaces i.toNat))] (UInt32.ofNat i.toNat) z r)
    -- `x = sexpr_choice_1(v) = car(cdr(v))`, `y = sexpr_choice_2(v) = cdr(cdr(v))`, and the int
    -- difference `static_cast<int>(w) - static_cast<int>(k)`
    | some .choice =>
      match v with
      | .cons _ (.cons x y) =>
        (spaceUptoLineBreak x r).bind fun (m, _) =>
          if inIntRange (castInt w - castInt k) then
            some (if fits w k m then .next [] k (.cons (.cons (.int i) x) z) r
              else .next [] k (.cons (.cons (.int i) y) z) r)
          else none
      | _ => none
    | none => none
  | _, _ => none

/-! ### Termination -/

mutual
def Sexpr.weight : Sexpr → Nat
  | .cons _ payload => 1 + payload.partsWeight
  | _ => 0

def Sexpr.partsWeight : Sexpr → Nat
  | .cons x rest => 1 + x.weight + rest.weight + rest.partsWeight
  | _ => 0
end

def entryWeight : Sexpr → Nat
  | .cons _ v => v.weight
  | _ => 0

def pendingWeight : Sexpr → Nat
  | .cons entry z => 1 + entryWeight entry + pendingWeight z
  | _ => 0

def stackWeight : Sexpr → Nat
  | .cons z r => 1 + pendingWeight z + stackWeight r
  | _ => 0

theorem pendingWeight_map {i : Int} {list list' : Sexpr}
    (mapped : list.map (.cons (.int i)) = some list') : pendingWeight list' ≤ list.partsWeight := by
  induction list generalizing list' with
  | nil => cases mapped; simp [pendingWeight]
  | cons x rest _ ih =>
    simp only [Sexpr.map, Option.map_eq_some'] at mapped
    obtain ⟨rest', restMapped, rfl⟩ := mapped
    have := ih restMapped
    simp only [pendingWeight, entryWeight, Sexpr.partsWeight]
    omega
  | _ => cases mapped

theorem pendingWeight_append (xs ys : List Sexpr) :
    pendingWeight (Sexpr.ofList (xs ++ ys)) =
      pendingWeight (Sexpr.ofList xs) + pendingWeight (Sexpr.ofList ys) := by
  induction xs with
  | nil => simp [pendingWeight]
  | cons x xs ih =>
    rw [List.cons_append, Sexpr.ofList_cons, Sexpr.ofList_cons, pendingWeight, pendingWeight, ih]
    omega

/-- Each recursive call of `be` has a smaller weight than the call that makes it. -/
theorem beStep_weight {w k k' : UInt32} {s r s' r' : Sexpr} {out : List Sexpr}
    (step : beStep w k s r = some (.next out k' s' r')) :
    pendingWeight s' + stackWeight r' < pendingWeight s + stackWeight r := by
  unfold beStep at step
  split at step
  next => cases step
  next => cases step; simp only [pendingWeight, stackWeight]; omega
  next _ _ i v z =>
    cases kindOf : sexprKind v with
    | none => simp [kindOf] at step
    | some kind =>
      cases kind with
      | compose =>
        simp only [kindOf] at step
        split at step
        next list =>
          obtain ⟨list', mapped, next⟩ := Option.map_eq_some'.mp step
          cases next
          have := pendingWeight_map mapped
          simp only [pendingWeight, entryWeight, stackWeight, Sexpr.weight]
          omega
        next => cases step
      | nest =>
        simp only [kindOf] at step
        split at step
        next j x =>
          split at step <;> cases step
          simp only [pendingWeight, entryWeight, Sexpr.weight, Sexpr.partsWeight]
          omega
        next => cases step
      | text | line =>
        simp only [kindOf] at step
        split at step <;> cases step
        simp only [pendingWeight, entryWeight]
        omega
      | choice =>
        simp only [kindOf] at step
        split at step
        next x y =>
          obtain ⟨⟨m, found⟩, -, next⟩ := Option.bind_eq_some.mp step
          dsimp only at next
          split at next
          · split at next <;> cases next <;>
              simp only [pendingWeight, entryWeight, Sexpr.weight, Sexpr.partsWeight] <;> omega
          · cases next
        next => cases step
      | _ => simp only [kindOf] at step; cases step; simp only [pendingWeight, entryWeight]; omega
  next => cases step

/-- `format::be(w, k, s, r)`: the width, the column, the pending list of
`(indent . format)` pairs and the stack of pending lists. -/
def be (w k : UInt32) (s r : Sexpr) : Option Sexpr :=
  match step : beStep w k s r with
  | none => none
  | some .done => some .nil
  | some (.next out k' s' r') => (be w k' s' r').map (Sexpr.prepend out)
termination_by pendingWeight s + stackWeight r
decreasing_by exact beStep_weight step

/-- `format::best(w, k, s)`: `be(w, k, sexpr{sexpr(0, s)}, sexpr())`. -/
def best (w k : UInt32) (s : Sexpr) : Option Sexpr :=
  be w k (.ofList [.cons (.int 0) s]) .nil

section
variable {w k k' : UInt32} {s r s' r' : Sexpr} {out : List Sexpr}

theorem be_of_beStep_none (step : beStep w k s r = none) : be w k s r = none := by
  rw [be]; split <;> simp_all

theorem be_of_beStep_done (step : beStep w k s r = some .done) : be w k s r = some .nil := by
  rw [be]; split <;> simp_all

theorem be_of_beStep_next (step : beStep w k s r = some (.next out k' s' r')) :
    be w k s r = (be w k' s' r').map (Sexpr.prepend out) := by
  rw [be]; split <;> simp_all

end

def BeCall (w : UInt32) (b a : UInt32 × Sexpr × Sexpr) : Prop :=
  ∃ out, beStep w a.1 a.2.1 a.2.2 = some (.next out b.1 b.2.1 b.2.2)

/-- `be`, and the measure functions it calls, terminate on every argument. -/
theorem be_terminates : (∀ w, WellFounded (BeCall w)) ∧ WellFounded SpaceCall := by
  refine ⟨fun w => ?_, spaceCall_wellFounded⟩
  refine Subrelation.wf ?_
    (InvImage.wf (fun a : UInt32 × Sexpr × Sexpr => pendingWeight a.2.1 + stackWeight a.2.2)
      wellFounded_lt)
  rintro b a ⟨out, step⟩
  exact beStep_weight step

/-! ### The typed mirror: `be` on the value of a typed state -/

namespace Typed

inductive Step where
  | done
  | next (out : List Format) (k : UInt32) (s : List (Int × Format))
      (r : List (List (Int × Format)))

def Step.encode : Step → BeStep
  | done => .done
  | next out k s r => .next (out.map Format.toSexpr) k (encodePending s) (encodeStack r)

/-- The body of `be` on a typed state. -/
def beStep (w k : UInt32) : List (Int × Format) → List (List (Int × Format)) → Option Step
  | [], [] => some .done
  | [], z :: r => some (.next [] k z r)
  | (_, .nil) :: z, r => some (.next [] k z r)
  | (_, .colorBegin c) :: z, r => some (.next [.colorBegin c] k z r)
  | (_, .colorEnd) :: z, r => some (.next [.colorEnd] k z r)
  | (i, .compose l) :: z, r => some (.next [] k (l.map (i, ·)) (z :: r))
  | (i, .nest j x) :: z, r => if inIntRange (i + j) then some (.next [] k ((i + j, x) :: z) r) else none
  | (_, .text t) :: z, r => some (.next [.text t] (k + UInt32.ofNat t.length) z r)
  | (i, .line) :: z, r =>
    if i < 0 then none
    else some (.next [.line, .text (spaces i.toNat)] (UInt32.ofNat i.toNat) z r)
  | (i, .choice x y) :: z, r => (spaceUptoLineBreak x r).bind fun m =>
    if inIntRange (castInt w - castInt k) then
      some (if fits w k m then .next [] k ((i, x) :: z) r else .next [] k ((i, y) :: z) r)
    else none

theorem beStep_choice_eq_none_iff {w k : UInt32} {i : Int} {x y : Format}
    {z : List (Int × Format)} {r : List (List (Int × Format))} :
    beStep w k ((i, .choice x y) :: z) r = none ↔
      inIntRange (castInt w - castInt k) = false ∨ spaceUptoLineBreak x r = none := by
  cases range : inIntRange (castInt w - castInt k) <;> cases measured : spaceUptoLineBreak x r <;>
    simp [beStep, range, measured]

theorem beStep_eq_none_iff {w k : UInt32} {s : List (Int × Format)}
    {r : List (List (Int × Format))} :
    beStep w k s r = none ↔ ∃ i z, (s = (i, .line) :: z ∧ i < 0) ∨
      (∃ j x, s = (i, .nest j x) :: z ∧ inIntRange (i + j) = false) ∨
      ∃ x y, s = (i, .choice x y) :: z ∧ (inIntRange (castInt w - castInt k) = false ∨
        x.lead.2 = false ∧ ∃ top rest, r = top :: rest ∧ top.length ≠ 1) := by
  match s, r with
  | [], [] | [], _ :: _ => simp [beStep]
  | (i, f) :: z, r =>
    cases f with
    | line => simp [beStep]
    | nest j x => simp [beStep, and_assoc]
    | choice x y => simp [beStep_choice_eq_none_iff, spaceUptoLineBreak_eq_none_iff, and_assoc]
    | _ => simp [beStep]

theorem beStep_choice_eq_some {w k : UInt32} {i : Int} {x y : Format}
    {z : List (Int × Format)} {r : List (List (Int × Format))} {step : Step}
    (next : beStep w k ((i, .choice x y) :: z) r = some step) :
    step = .next [] k ((i, if fits w k x.lead.1 then x else y) :: z) r := by
  obtain ⟨m, measured, next⟩ := Option.bind_eq_some.mp next
  rw [spaceUptoLineBreak_eq_some measured] at next
  split at next
  · cases next; split <;> rfl
  · cases next

end Typed

open Typed

/-- On the value of a typed state, `be`'s body does what the typed body does. -/
theorem beStep_encode (w k : UInt32) (s : List (Int × Format)) (r : List (List (Int × Format))) :
    beStep w k (encodePending s) (encodeStack r) = (Typed.beStep w k s r).map Step.encode := by
  match s, r with
  | [], [] => rfl
  | [], z :: r => rfl
  | (i, f) :: z, r =>
    cases f with
    | compose l =>
      simp [beStep, Typed.beStep, encodePending, encodeEntry, Format.toSexpr, sexprCompose,
        sexprNode, sexprKind, Step.encode, Function.comp_def]
      rfl
    | nest _ _ | line =>
      simp only [beStep, Typed.beStep, encodePending, encodeEntry, Format.toSexpr, List.map_cons,
        Sexpr.ofList_cons, sexprNode, sexprKind, FormatKind.ofInt_toInt]
      split <;> rfl
    | choice x y =>
      simp only [beStep, Typed.beStep, encodePending, encodeEntry, Format.toSexpr, List.map_cons,
        Sexpr.ofList_cons, sexprNode, sexprKind, FormatKind.ofInt_toInt, spaceUptoLineBreak_encode,
        Option.bind_map, Option.map_bind]
      congr 1
      funext m
      simp only [Function.comp_apply]
      split
      · split <;> rfl
      · rfl
    | _ => rfl

/-- On the value of a typed state, one call of `be` fails exactly at a LINE with a negative
indent, at an int overflow of a NEST or a CHOICE, or where the measure cannot read `r`. -/
theorem beStep_encodePending_eq_none_iff {w k : UInt32} {s : List (Int × Format)}
    {r : List (List (Int × Format))} :
    beStep w k (encodePending s) (encodeStack r) = none ↔ ∃ i z, (s = (i, .line) :: z ∧ i < 0) ∨
      (∃ j x, s = (i, .nest j x) :: z ∧ inIntRange (i + j) = false) ∨
      ∃ x y, s = (i, .choice x y) :: z ∧ (inIntRange (castInt w - castInt k) = false ∨
        x.lead.2 = false ∧ ∃ top rest, r = top :: rest ∧ top.length ≠ 1) := by
  rw [beStep_encode, Option.map_eq_none', Typed.beStep_eq_none_iff]

/-- On the value of a typed state, the CHOICE case goes on with the first alternative
exactly when `fits` holds for the lead of that alternative, whatever follows it. -/
theorem beStep_encodePending_choice {w k : UInt32} {i : Int} {x y : Format}
    {z : List (Int × Format)} {r : List (List (Int × Format))} {step : BeStep}
    (next : beStep w k (encodePending ((i, .choice x y) :: z)) (encodeStack r) = some step) :
    step = (Step.next [] k ((i, if fits w k x.lead.1 then x else y) :: z) r).encode := by
  rw [beStep_encode] at next
  obtain ⟨typed, stepped, rfl⟩ := Option.map_eq_some'.mp next
  rw [Typed.beStep_choice_eq_some stepped]

theorem beStep_encodePending_choice_text :
    beStep 80 0 (encodePending [(0, .choice (.text "a") .line)]) (encodeStack []) =
        some (Step.next [] 0 [(0, .text "a")] []).encode ∧
      (Step.next [] 0 [(0, .text "a")] []).encode =
        (Step.next [] 0 [(0, if fits 80 0 (Format.text "a").lead.1 then .text "a" else .line)]
          []).encode := by
  have next : beStep 80 0 (encodePending [(0, .choice (.text "a") .line)]) (encodeStack []) =
      some (Step.next [] 0 [(0, .text "a")] []).encode := by
    rw [beStep_encode]
    rfl
  exact ⟨next, beStep_encodePending_choice next⟩

namespace Typed

def be (w k : UInt32) (s : List (Int × Format)) (r : List (List (Int × Format))) :
    Option (List Format) :=
  match step : beStep w k s r with
  | none => none
  | some .done => some []
  | some (.next out k' s' r') => (be w k' s' r').map (out ++ ·)
termination_by pendingWeight (encodePending s) + stackWeight (encodeStack r)
decreasing_by exact beStep_weight (by rw [beStep_encode, step]; rfl)

def best (w k : UInt32) (f : Format) : Option (List Format) := be w k [(0, f)] []

section
variable {w k k' : UInt32} {s s' : List (Int × Format)} {r r' : List (List (Int × Format))}
  {out : List Format}

theorem be_of_beStep_none (step : beStep w k s r = none) : be w k s r = none := by
  rw [be]; split <;> simp_all

theorem be_of_beStep_done (step : beStep w k s r = some .done) : be w k s r = some [] := by
  rw [be]; split <;> simp_all

theorem be_of_beStep_next (step : beStep w k s r = some (.next out k' s' r')) :
    be w k s r = (be w k' s' r').map (out ++ ·) := by
  rw [be]; split <;> simp_all

end

/-- Progress and preservation give a whole run: from every state of `Inv`, if each call
emits nodes of `good` and keeps `Inv`, `be` prints, and only nodes of `good`. -/
theorem be_of_invariant (good : Format → Prop)
    (Inv : List (Int × Format) → List (List (Int × Format)) → Prop)
    (preserved : ∀ k s r, Inv s r → ∃ step, beStep w k s r = some step ∧
      ∀ out k' s' r', step = .next out k' s' r' → (∀ x ∈ out, good x) ∧ Inv s' r')
    {k : UInt32} {s : List (Int × Format)} {r : List (List (Int × Format))} (holds : Inv s r) :
    ∃ printed, be w k s r = some printed ∧ ∀ x ∈ printed, good x := by
  induction k, s, r using be.induct w with
  | case1 k s r failed =>
    obtain ⟨step, stepped, -⟩ := preserved k s r holds
    simp [failed] at stepped
  | case2 k s r done => exact ⟨[], be_of_beStep_done done, by simp⟩
  | case3 k s r out k' s' r' next ih =>
    obtain ⟨step, stepped, kept⟩ := preserved k s r holds
    rw [next] at stepped
    cases stepped
    obtain ⟨goodOut, holds'⟩ := kept out k' s' r' rfl
    obtain ⟨printed, success, goodRest⟩ := ih holds'
    refine ⟨out ++ printed, by rw [be_of_beStep_next next, success]; rfl, ?_⟩
    simpa [or_imp, forall_and] using ⟨goodOut, goodRest⟩

/-- `be` cut off after `fuel` calls, in a form the kernel evaluates. -/
def beFuel (w : UInt32) : Nat → UInt32 → List (Int × Format) → List (List (Int × Format)) →
    Option (Option (List Format))
  | 0, _, _, _ => none
  | fuel + 1, k, s, r =>
    match beStep w k s r with
    | none => some none
    | some .done => some (some [])
    | some (.next out k' s' r') => (beFuel w fuel k' s' r').map (·.map (out ++ ·))

theorem be_eq_iff_beFuel {w k : UInt32} {s : List (Int × Format)}
    {r : List (List (Int × Format))} {result : Option (List Format)} :
    be w k s r = result ↔ ∃ fuel, beFuel w fuel k s r = some result := by
  constructor
  · rintro rfl
    induction k, s, r using be.induct w with
    | case1 k s r failed => exact ⟨1, by simp [beFuel, failed, be_of_beStep_none failed]⟩
    | case2 k s r done => exact ⟨1, by simp [beFuel, done, be_of_beStep_done done]⟩
    | case3 k s r out k' s' r' next ih =>
      obtain ⟨fuel, ran⟩ := ih
      exact ⟨fuel + 1, by simp [beFuel, next, ran, be_of_beStep_next next]⟩
  · rintro ⟨fuel, ran⟩
    induction fuel generalizing k s r result with
    | zero => cases ran
    | succ fuel ih =>
      simp only [beFuel] at ran
      split at ran
      next failed => cases ran; exact be_of_beStep_none failed
      next done => cases ran; exact be_of_beStep_done done
      next out k' s' r' next =>
        obtain ⟨rest, ranRest, rfl⟩ := Option.map_eq_some'.mp ran
        rw [be_of_beStep_next next, ih ranRest]

theorem be_of_beFuel {w k : UInt32} {s : List (Int × Format)} {r : List (List (Int × Format))}
    (fuel : Nat) (result : Option (List Format)) (ran : beFuel w fuel k s r = some result) :
    be w k s r = result :=
  be_eq_iff_beFuel.mpr ⟨fuel, ran⟩

end Typed

def encodeOutput (out : List Format) : Sexpr := Sexpr.ofList (out.map Format.toSexpr)

/-- On the value of a typed state, `be` computes the value of the typed run. -/
theorem be_encode (w k : UInt32) (s : List (Int × Format)) (r : List (List (Int × Format))) :
    be w k (encodePending s) (encodeStack r) = (Typed.be w k s r).map encodeOutput := by
  induction k, s, r using Typed.be.induct w with
  | case1 k s r step =>
    rw [Typed.be_of_beStep_none step, be_of_beStep_none (by rw [beStep_encode, step]; rfl)]
    rfl
  | case2 k s r step =>
    rw [Typed.be_of_beStep_done step, be_of_beStep_done (by rw [beStep_encode, step]; rfl)]
    rfl
  | case3 k s r out k' s' r' step ih =>
    rw [Typed.be_of_beStep_next step, be_of_beStep_next (by rw [beStep_encode, step]; rfl), ih]
    cases Typed.be w k' s' r' <;> simp [encodeOutput]

theorem best_encode (w k : UInt32) (f : Format) :
    best w k f.toSexpr = (Typed.best w k f).map encodeOutput :=
  be_encode w k [(0, f)] []

/-- A group followed by more text fails at every width and column: the CHOICE's measure
takes `cdr(car(r))` of the empty rest that the COMPOSE pushed. -/
theorem best_group_then_text_fails (w k : UInt32) :
    best w k (group (.text "a") + .text "b").toSexpr = none := by
  rw [best_encode, Typed.best,
    Typed.be_of_beStep_next (show Typed.beStep w k [(0, group (.text "a") + .text "b")] [] =
      some (.next [] k [(0, group (.text "a")), (0, .text "b")] [[]]) from rfl),
    Typed.be_of_beStep_none (show Typed.beStep w k [(0, group (.text "a")), (0, .text "b")] [[]] =
      none from rfl)]
  rfl

/-! ### The width up to the next line break -/

mutual
/-- The text width of a document up to its first LINE, and whether a LINE ends it. -/
def Format.widthUptoLine : Format → Nat × Bool
  | .nil | .colorBegin _ | .colorEnd => (0, false)
  | .nest _ x => x.widthUptoLine
  | .compose parts => widthUptoLineList parts
  | .choice x _ => x.widthUptoLine
  | .line => (0, true)
  | .text t => (t.length, false)

def widthUptoLineList : List Format → Nat × Bool
  | [] => (0, false)
  | x :: rest =>
    if x.widthUptoLine.2 then x.widthUptoLine
    else ((widthUptoLineList rest).1 + x.widthUptoLine.1, (widthUptoLineList rest).2)
end

/-- A group whose flat form `a b` is three columns wide is laid out flat at width 2: the
CHOICE measures its COMPOSE by the first part alone. -/
theorem be_choice_measures_first_part :
    2 < 0 + (widthUptoLineList [(Format.compose [.text "a", .line, .text "b"]).flatten]).1 ∧
      beStep 2 0 (encodePending [(0, group (.compose [.text "a", .line, .text "b"]))]) .nil =
        some (.next [] 0 (encodePending [(0, (Format.compose [.text "a", .line, .text "b"]).flatten)])
          .nil) ∧
      best 2 0 (group (.compose [.text "a", .line, .text "b"])).toSexpr =
        some (encodeOutput [.text "a", .text " ", .text "b"]) := by
  refine ⟨by decide, by rw [← encodeStack_nil, beStep_encode]; rfl, ?_⟩
  rw [best_encode, Typed.best,
    Typed.be_of_beFuel 7 (some [.text "a", .text " ", .text "b"]) (by decide)]
  rfl

end PrettyFormat
