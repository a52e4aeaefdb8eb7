import PrettyFormat.Pending

/-! The layout `be` computes, as a recursion over the document: `arrange w i k f` lays `f`
out at indent `i` from column `k` and returns what it prints and the column after it.
Whatever `best` prints is the arrangement of its document. -/

namespace PrettyFormat

namespace Format

mutual
/-- The nodes `f` prints at indent `i` from column `k`, with the column after them. -/
def arrange (w : UInt32) (i : Int) (k : UInt32) : Format → Option (List Format × UInt32)
  | nil => some ([], k)
  | nest j x => arrange w (i + j) k x
  | compose l => arrangeList w i k l
  | choice x y => if fits w k x.lead.1 then arrange w i k x else arrange w i k y
  | line => if i < 0 then none else some ([line, text (spaces i.toNat)], UInt32.ofNat i.toNat)
  | text t => some ([text t], k + UInt32.ofNat t.length)
  | colorBegin c => some ([colorBegin c], k)
  | colorEnd => some ([colorEnd], k)

def arrangeList (w : UInt32) (i : Int) (k : UInt32) : List Format → Option (List Format × UInt32)
  | [] => some ([], k)
  | x :: l =>
    (arrange w i k x).bind fun (out, k') =>
      (arrangeList w i k' l).map fun (out', k'') => (out ++ out', k'')
end

/-- The column after printing `out` from column `k`. -/
def column (k : UInt32) : List Format → UInt32
  | [] => k
  | line :: out => column 0 out
  | text t :: out => column (k + UInt32.ofNat t.length) out
  | _ :: out => column k out

@[simp] theorem column_append (k : UInt32) (out out' : List Format) :
    column k (out ++ out') = column (column k out) out' := by
  induction out generalizing k with
  | nil => rfl
  | cons x out ih => cases x <;> simp [column, ih]

theorem arrange_column (w : UInt32) (f : Format) :
    ∀ {i k out k'}, f.arrange w i k = some (out, k') → k' = column k out := by
  induction f using Format.induction with
  | nest j x ih => exact ih
  | compose l ih =>
    intro i k out k'
    induction l generalizing k out with
    | nil => intro h; cases h; rfl
    | cons x l ihl =>
      simp only [List.mem_cons, forall_eq_or_imp] at ih
      intro h
      obtain ⟨⟨out₁, k₁⟩, first, h⟩ := Option.bind_eq_some.mp h
      obtain ⟨⟨out₂, k₂⟩, rest, h⟩ := Option.map_eq_some'.mp h
      cases h
      rw [column_append, ← ih.1 first]
      exact ihl ih.2 rest
  | choice x y ihx ihy =>
    intro i k out k' h
    simp only [arrange] at h
    split at h
    exacts [ihx h, ihy h]
  | line =>
    intro i k out k' h
    simp only [arrange] at h
    split at h <;> cases h
    simp [column, spaces_length]
  | _ => intro i k out k' h; cases h; rfl

end Format

namespace Pending

open Format

theorem run_cons_of_stepHead (w k : UInt32) (entry : Int × Format) {k' : UInt32}
    {out : List Format} {front : List (Int × Format)} (head : stepHead w k entry = some (out, k', front))
    (s : List (Int × Format)) : run w k (entry :: s) = (run w k' (front ++ s)).map (out ++ ·) :=
  run_of_step_next (by simp [step, head])

@[simp] theorem run_nil (w k : UInt32) : run w k [] = some [] := run_of_step_done rfl

/-- Running an entry is arranging it and running the rest from the column it ends at. -/
theorem run_arrange (w : UInt32) (f : Format) :
    ∀ i k s, run w k ((i, f) :: s) =
      (f.arrange w i k).bind fun (out, k') => (run w k' s).map (out ++ ·) := by
  induction f using Format.induction with
  | nest j x ih => intro i k s; simp [run_cons_of_stepHead w k (i, .nest j x) rfl, arrange, ih]
  | compose l ih =>
    intro i k s
    rw [run_compose, arrange]
    induction l generalizing k with
    | nil => simp [arrangeList]
    | cons x l ihl =>
      simp only [List.mem_cons, forall_eq_or_imp] at ih
      rw [List.map_cons, List.cons_append, ih.1, arrangeList]
      cases arrange w i k x with
      | none => rfl
      | some first => simp [ihl ih.2, Option.bind_map, Function.comp_def]
  | choice x y ihx ihy =>
    intro i k s
    rw [run_cons_of_stepHead w k (i, .choice x y) rfl, arrange]
    split <;> simp [ihx, ihy]
  | line =>
    intro i k s
    rw [arrange]
    split
    case isTrue negative => exact run_of_step_none (by simp [step, stepHead, negative])
    case isFalse indent => rw [run_cons_of_stepHead w k (i, .line) (if_neg indent)]; rfl
  | _ => intro i k s; exact run_of_step_next rfl

end Pending

open Format

/-- Whatever `best` prints is the arrangement of its document at indent 0 from column
`k`, and that arrangement ends at the column of what it prints. -/
theorem best_arranges {w k : UInt32} {f : Format} {printed : Sexpr}
    (success : best w k f.toSexpr = some printed) :
    ∃ out, printed = encodeOutput out ∧ f.arrange w 0 k = some (out, column k out) := by
  rw [best_encode] at success
  obtain ⟨out, typed, rfl⟩ := Option.map_eq_some'.mp success
  have ran := Typed.be_refines_run typed
  rw [List.flatten_nil, List.singleton_append, Pending.run_arrange] at ran
  simp only [Pending.run_nil, Option.map_some', List.append_nil] at ran
  obtain ⟨⟨out', k'⟩, arranged, rest⟩ := Option.bind_eq_some.mp ran
  cases rest
  exact ⟨_, rfl, by rw [arranged, ← arrange_column w f arranged]⟩

theorem best_group_arranges :
    best 4 0 (group (.text "ab" + .line + .text "c")).toSexpr =
        some (encodeOutput [.text "ab", .text " ", .text "c"]) ∧
      ∃ out, encodeOutput [.text "ab", .text " ", .text "c"] = encodeOutput out ∧
        (group (.text "ab" + .line + .text "c")).arrange 4 0 0 = some (out, column 0 out) := by
  have success : best 4 0 (group (.text "ab" + .line + .text "c")).toSexpr =
      some (encodeOutput [.text "ab", .text " ", .text "c"]) := by
    rw [best_encode, Typed.best,
      Typed.be_of_beFuel 10 (some [.text "ab", .text " ", .text "c"]) (by decide)]
    rfl
  exact ⟨success, best_arranges success⟩

/-! ### The layout `be` computes, failures included -/

namespace Format

mutual
/-- `arrange`, failing where `be` fails: `readable` says whether the measure can read the
top list of the stack, and `after` counts the entries pending after this one. -/
def arrangeBe (w : UInt32) (i : Int) (k : UInt32) (readable : Bool) (after : Nat) :
    Format → Option (List Format × UInt32)
  | nil => some ([], k)
  | nest j x => if inIntRange (i + j) then arrangeBe w (i + j) k readable after x else none
  | compose l => arrangeBeList w i k (after == 1) l
  | choice x y =>
    if (x.lead.2 || readable) && inIntRange (castInt w - castInt k) then
      if fits w k x.lead.1 then arrangeBe w i k readable after x
      else arrangeBe w i k readable after y
    else none
  | line => if i < 0 then none else some ([line, text (spaces i.toNat)], UInt32.ofNat i.toNat)
  | text t => some ([text t], k + UInt32.ofNat t.length)
  | colorBegin c => some ([colorBegin c], k)
  | colorEnd => some ([colorEnd], k)

def arrangeBeList (w : UInt32) (i : Int) (k : UInt32) (readable : Bool) :
    List Format → Option (List Format × UInt32)
  | [] => some ([], k)
  | x :: l =>
    (arrangeBe w i k readable l.length x).bind fun (out, k') =>
      (arrangeBeList w i k' readable l).map fun (out', k'') => (out ++ out', k'')
end

end Format

namespace Typed

theorem spaceUptoLineBreakList_cons_isSome (z : List (Int × Format))
    (r : List (List (Int × Format))) : (spaceUptoLineBreakList (z :: r)).isSome = (z.length == 1) := by
  match z with
  | [] | [_] | _ :: _ :: _ => rfl

theorem spaceUptoLineBreak_eq (x : Format) (r : List (List (Int × Format))) :
    spaceUptoLineBreak x r =
      if x.lead.2 || (spaceUptoLineBreakList r).isSome then some x.lead.1 else none := by
  unfold spaceUptoLineBreak
  match r with
  | [] | [_] :: _ | [] :: _ | (_ :: _ :: _) :: _ => cases x.lead.2 <;> simp [spaceUptoLineBreakList]

theorem be_cons_of_beStep (w k : UInt32) (entry : Int × Format) (z : List (Int × Format))
    (r : List (List (Int × Format))) {out : List Format} {k' : UInt32} {s' : List (Int × Format)}
    {r' : List (List (Int × Format))} (next : beStep w k (entry :: z) r = some (.next out k' s' r')) :
    be w k (entry :: z) r = (be w k' s' r').map (out ++ ·) :=
  be_of_beStep_next next

/-- `be` lays an entry out as `arrangeBe` does, and goes on from the column it ends at. -/
theorem be_arrangeBe (w : UInt32) (f : Format) :
    ∀ i k z r, be w k ((i, f) :: z) r =
      (f.arrangeBe w i k (spaceUptoLineBreakList r).isSome z.length).bind fun (out, k') =>
        (be w k' z r).map (out ++ ·) := by
  induction f using Format.induction with
  | nest j x ih =>
    intro i k z r
    by_cases range : inIntRange (i + j)
    · have next : beStep w k ((i, .nest j x) :: z) r = some (.next [] k ((i + j, x) :: z) r) := by
        simp [beStep, range]
      simp [be_of_beStep_next next, Format.arrangeBe, range, ih]
    · simp [be_of_beStep_none (show beStep w k ((i, .nest j x) :: z) r = none by simp [beStep, range]),
        Format.arrangeBe, range]
  | compose l ih =>
    intro i k z r
    have parts : ∀ k, be w k (l.map (i, ·)) (z :: r) =
        (Format.arrangeBeList w i k (z.length == 1) l).bind fun (out, k') =>
          (be w k' z r).map (out ++ ·) := by
      induction l with
      | nil =>
        intro k
        simp [Format.arrangeBeList,
          be_of_beStep_next (show beStep w k [] (z :: r) = some (.next [] k z r) from rfl)]
      | cons x l ihl =>
        simp only [List.mem_cons, forall_eq_or_imp] at ih
        intro k
        rw [List.map_cons, ih.1, List.length_map, Format.arrangeBeList,
          spaceUptoLineBreakList_cons_isSome]
        cases Format.arrangeBe w i k _ l.length x with
        | none => rfl
        | some first => simp [ihl ih.2, Option.bind_map, Function.comp_def]
    simp [be_cons_of_beStep w k (i, .compose l) z r rfl, Format.arrangeBe, parts]
  | choice x y ihx ihy =>
    intro i k z r
    rw [Format.arrangeBe]
    by_cases measured : (x.lead.2 || (spaceUptoLineBreakList r).isSome) &&
      inIntRange (castInt w - castInt k)
    · have next : beStep w k ((i, .choice x y) :: z) r =
          some (.next [] k ((i, if fits w k x.lead.1 then x else y) :: z) r) := by
        rw [Bool.and_eq_true] at measured
        simp only [beStep, spaceUptoLineBreak_eq, measured, if_true, Option.some_bind]
        split <;> rfl
      rw [if_pos measured, be_of_beStep_next next]
      by_cases fit : fits w k x.lead.1 <;> simp [fit, ihx, ihy]
    · have failed : beStep w k ((i, .choice x y) :: z) r = none := by
        rw [Bool.and_eq_true, not_and] at measured
        rw [beStep_choice_eq_none_iff, spaceUptoLineBreak_eq]
        by_cases readable : x.lead.2 || (spaceUptoLineBreakList r).isSome
        · exact .inl (by simpa using measured readable)
        · exact .inr (if_neg readable)
      rw [if_neg measured, be_of_beStep_none failed]
      rfl
  | line =>
    intro i k z r
    rw [Format.arrangeBe]
    split
    case isTrue negative => exact be_of_beStep_none (by simp [beStep, negative])
    case isFalse indent =>
      rw [be_cons_of_beStep w k (i, .line) z r (if_neg indent)]; rfl
  | _ => intro i k z r; exact be_of_beStep_next rfl

theorem best_arrangeBe (w k : UInt32) (f : Format) :
    best w k f = (f.arrangeBe w 0 k true 0).map Prod.fst := by
  rw [best, be_arrangeBe, List.length_nil, show (spaceUptoLineBreakList []).isSome = true from rfl]
  cases f.arrangeBe w 0 k true 0 with
  | none => rfl
  | some laid => simp [be_of_beStep_done (show beStep w laid.2 [] [] = some .done from rfl)]

end Typed

/-- `best` is a recursion over the document: it prints what `arrangeBe` lays out from
indent 0 and column `k`, and fails exactly where `arrangeBe` does. -/
theorem best_eq_arrangeBe (w k : UInt32) (f : Format) :
    best w k f.toSexpr = (f.arrangeBe w 0 k true 0).map fun (out, _) => encodeOutput out := by
  rw [best_encode, Typed.best_arrangeBe, Option.map_map]
  rfl

/-! ### The measure errs on one side -/

/-- `d = int(w) - int(k) - m` is non-negative when `k + m ≤ w < 2^31`. -/
theorem fits_of_le {w k m : UInt32} (bounded : w.toNat < 2 ^ 31)
    (room : k.toNat + m.toNat ≤ w.toNat) : fits w k m = true := by
  have first : (w - k).toNat = w.toNat - k.toNat :=
    UInt32.toNat_sub_of_le w k (show k.toNat ≤ w.toNat by omega)
  have second : (w - k - m).toNat = w.toNat - k.toNat - m.toNat := by
    rw [UInt32.toNat_sub_of_le _ _ (show m.toNat ≤ (w - k).toNat by omega), first]
  simp only [fits, second, decide_eq_true_eq]
  omega

theorem widthUptoLine_le_list (x : Format) (rest : List Format) :
    x.widthUptoLine.1 ≤ (widthUptoLineList (x :: rest)).1 := by
  rw [widthUptoLineList]
  split <;> simp

theorem lead_le_widthUptoLine (x : Format) : x.lead.1.toNat ≤ x.widthUptoLine.1 := by
  induction x using Format.induction with
  | nest j x ih => exact ih
  | compose l ih =>
    cases l with
    | nil => simp [lead, widthUptoLine, widthUptoLineList]
    | cons x rest =>
      simp only [lead, widthUptoLine]
      exact (ih x (List.mem_cons_self x rest)).trans (widthUptoLine_le_list x rest)
  | choice x y ihx => exact ihx
  | text t =>
    exact Nat.mod_le t.length _
  | _ => simp [lead, widthUptoLine]

namespace Typed

/-- `be` never turns down the first alternative of a CHOICE that fits, at a width below
`2^31`, with everything that follows it up to the next line break. -/
theorem beStep_choice_first_of_room {w k : UInt32} {i : Int} {x y : Format}
    {z : List (Int × Format)} {r : List (List (Int × Format))} {step : Step}
    (bounded : w.toNat < 2 ^ 31)
    (room : k.toNat + (widthUptoLineList (x :: (z ++ r.flatten).map Prod.snd)).1 ≤ w.toNat)
    (next : beStep w k ((i, .choice x y) :: z) r = some step) :
    step = .next [] k ((i, x) :: z) r := by
  have counted : k.toNat + x.lead.1.toNat ≤ w.toNat := by
    have := (lead_le_widthUptoLine x).trans (widthUptoLine_le_list x ((z ++ r.flatten).map Prod.snd))
    omega
  rw [beStep_choice_eq_some next, if_pos (fits_of_le bounded counted)]

theorem beStep_choice_text_first :
    (80 : UInt32).toNat < 2 ^ 31 ∧
      (0 : UInt32).toNat + (widthUptoLineList
        (Format.text "ab" :: ([(0, Format.text "c")] ++ ([] : List (List (Int × Format))).flatten).map
          Prod.snd)).1 ≤ (80 : UInt32).toNat ∧
      beStep 80 0 [(0, .choice (.text "ab") .line), (0, .text "c")] [] =
        some (.next [] 0 [(0, .text "ab"), (0, .text "c")] []) ∧
      Step.next [] 0 [(0, .text "ab"), (0, .text "c")] [] =
        .next [] 0 ((0, .text "ab") :: [(0, .text "c")]) [] := by
  have next : beStep 80 0 [(0, .choice (.text "ab") .line), (0, .text "c")] [] =
      some (.next [] 0 [(0, .text "ab"), (0, .text "c")] []) := rfl
  exact ⟨by decide, by decide, next, beStep_choice_first_of_room (by decide) (by decide) next⟩

end Typed

end PrettyFormat
