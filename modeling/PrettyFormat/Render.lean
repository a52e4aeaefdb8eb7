import PrettyFormat.Pending
import Mathlib.Data.List.Forall2

/-! What `best` prints: the nodes of the document with every CHOICE replaced by one
of its alternatives, each LINE followed by the spaces of its indent. -/

namespace PrettyFormat

namespace Format

/-- `Resolves f f'`: `f'` is `f` with every CHOICE replaced by one of its alternatives. -/
inductive Resolves : Format → Format → Prop
  | nil : Resolves nil nil
  | nest : Resolves x x' → Resolves (nest j x) (nest j x')
  | compose : List.Forall₂ Resolves l l' → Resolves (compose l) (compose l')
  | first : Resolves x x' → Resolves (choice x y) x'
  | second : Resolves y y' → Resolves (choice x y) y'
  | line : Resolves line line
  | text : Resolves (text t) (text t)
  | colorBegin : Resolves (colorBegin c) (colorBegin c)
  | colorEnd : Resolves colorEnd colorEnd

mutual
/-- The nodes a resolved document prints at indent `i`, each LINE followed by `i` spaces;
a CHOICE prints its first alternative. -/
def render (i : Int) : Format → List Format
  | nil => []
  | nest j x => render (i + j) x
  | compose l => renderList i l
  | choice x _ => render i x
  | line => [line, text (spaces i.toNat)]
  | text t => [text t]
  | colorBegin c => [colorBegin c]
  | colorEnd => [colorEnd]

def renderList (i : Int) : List Format → List Format
  | [] => []
  | x :: l => render i x ++ renderList i l
end

@[simp] theorem renderList_eq (i : Int) (l : List Format) :
    renderList i l = (l.map (render i)).flatten := by
  induction l with
  | nil => rfl
  | cons x l ih => simp [renderList, ih]

end Format

open Format

def renderPending (s : List (Int × Format)) : List Format :=
  (s.map fun entry => render entry.1 entry.2).flatten

@[simp] theorem renderPending_nil : renderPending [] = [] := rfl

@[simp] theorem renderPending_cons (entry : Int × Format) (s : List (Int × Format)) :
    renderPending (entry :: s) = render entry.1 entry.2 ++ renderPending s := rfl

/-- A resolution of a pending list: each entry's document resolved at the same indent. -/
def ResolvesPending (s s' : List (Int × Format)) : Prop :=
  List.Forall₂ (fun e e' => e.1 = e'.1 ∧ Resolves e.2 e'.2) s s'

private theorem forall₂_append_left {R : α → β → Prop} :
    ∀ {a b : List α} {c : List β}, List.Forall₂ R (a ++ b) c →
      ∃ c₁ c₂, c = c₁ ++ c₂ ∧ List.Forall₂ R a c₁ ∧ List.Forall₂ R b c₂
  | [], _, c, rel => ⟨[], c, rfl, .nil, rel⟩
  | _ :: _, _, _, .cons head tail =>
    let ⟨c₁, c₂, split, left, right⟩ := forall₂_append_left tail
    ⟨_ :: c₁, c₂, by rw [split]; rfl, .cons head left, right⟩

private theorem resolves_parts {i : Int} {l : List Format} {t : List (Int × Format)}
    (resolved : ResolvesPending (l.map (i, ·)) t) :
    Resolves (.compose l) (.compose (t.map Prod.snd)) ∧
      renderPending t = render i (.compose (t.map Prod.snd)) := by
  unfold ResolvesPending at resolved
  rw [List.forall₂_map_left_iff] at resolved
  refine ⟨.compose (List.forall₂_map_right_iff.mpr (resolved.imp fun _ _ h => h.2)), ?_⟩
  have indents : t.map (fun e => render e.1 e.2) = t.map (fun e => render i e.2) := by
    induction resolved with
    | nil => rfl
    | cons head _ ih => simp [ih, ← head.1]
  simp [renderPending, render, indents, Function.comp_def]

namespace Pending

/-- Whatever resolution the list after a step has, the list before it has one that
prints the step's output and then the same nodes. -/
theorem step_resolves {w k k' : UInt32} {s s' t' : List (Int × Format)} {out : List Format}
    (next : step w k s = some (.next out k' s')) (resolved : ResolvesPending s' t') :
    ∃ t, ResolvesPending s t ∧ renderPending t = out ++ renderPending t' := by
  match s with
  | [] => cases next
  | (i, f) :: z =>
    obtain ⟨front, head, rfl⟩ := step_cons_eq_some next
    cases f with
    | nest j x =>
      cases head
      obtain ⟨e, t, first, rest, rfl⟩ := List.forall₂_cons_left_iff.mp resolved
      exact ⟨(i, .nest j e.2) :: t, .cons ⟨rfl, .nest first.2⟩ rest, by simp [render, ← first.1]⟩
    | compose l =>
      cases head
      obtain ⟨c₁, c₂, rfl, parts, rest⟩ := forall₂_append_left resolved
      obtain ⟨resolves, rendered⟩ := resolves_parts parts
      refine ⟨(i, .compose (c₁.map Prod.snd)) :: c₂, .cons ⟨rfl, resolves⟩ rest, ?_⟩
      simp only [renderPending_cons, ← rendered]
      simp [renderPending]
    | choice x y =>
      cases head
      by_cases fit : fits w k x.lead.1 <;> simp only [fit] at resolved <;>
        obtain ⟨e, t, first, rest, rfl⟩ := List.forall₂_cons_left_iff.mp resolved
      · exact ⟨e :: t, .cons ⟨first.1, .first first.2⟩ rest, rfl⟩
      · exact ⟨e :: t, .cons ⟨first.1, .second first.2⟩ rest, rfl⟩
    | line =>
      simp only [stepHead] at head
      split at head <;> cases head
      exact ⟨_, .cons ⟨rfl, .line⟩ resolved, rfl⟩
    | _ => cases head; exact ⟨_, .cons ⟨rfl, by constructor⟩ resolved, rfl⟩

/-- A single-list layout prints the rendering of a resolution of the list. -/
theorem run_resolves {w k : UInt32} {s : List (Int × Format)} {printed : List Format}
    (success : run w k s = some printed) : ∃ t, ResolvesPending s t ∧ printed = renderPending t := by
  induction k, s using run.induct w generalizing printed with
  | case1 k s failed => simp [run_of_step_none failed] at success
  | case2 k s done =>
    rw [run_of_step_done done] at success
    cases success
    exact ⟨[], by rw [step_done done]; exact .nil, rfl⟩
  | case3 k s out k' s' next ih =>
    rw [run_of_step_next next] at success
    obtain ⟨rest, printedRest, rfl⟩ := Option.map_eq_some'.mp success
    obtain ⟨t', resolved', rfl⟩ := ih printedRest
    obtain ⟨t, resolved, rendered⟩ := step_resolves next resolved'
    exact ⟨t, resolved, rendered.symm⟩

end Pending

/-- Whatever `best` returns is the rendering, from indent 0, of the document with
every CHOICE replaced by one of its alternatives. -/
theorem best_renders_resolution (w k : UInt32) (f : Format) (printed : Sexpr)
    (success : best w k f.toSexpr = some printed) :
    ∃ f', Resolves f f' ∧ printed = encodeOutput (render 0 f') := by
  rw [best_encode] at success
  obtain ⟨out, typed, rfl⟩ := Option.map_eq_some'.mp success
  obtain ⟨t, resolved, rfl⟩ := Pending.run_resolves (Typed.be_refines_run typed)
  cases resolved with
  | cons head rest =>
    cases rest
    exact ⟨_, head.2, by simp [← head.1]⟩

theorem best_group_text_renders :
    best 80 0 (group (.text "a")).toSexpr = some (encodeOutput [.text "a"]) ∧
      ∃ f', Resolves (group (.text "a")) f' ∧
        encodeOutput [.text "a"] = encodeOutput (render 0 f') := by
  have success : best 80 0 (group (.text "a")).toSexpr = some (encodeOutput [.text "a"]) := by
    rw [best_encode, Typed.best, Typed.be_of_beFuel 3 (some [.text "a"]) (by decide)]
    rfl
  exact ⟨success, best_renders_resolution 80 0 _ _ success⟩

theorem Typed.best_resolves {w k : UInt32} {f : Format} {out : List Format}
    (success : Typed.best w k f = some out) : ∃ f', Resolves f f' ∧ out = render 0 f' := by
  obtain ⟨t, resolved, rfl⟩ := Pending.run_resolves (Typed.be_refines_run success)
  obtain ⟨⟨i, f'⟩, _, ⟨rfl, head⟩, rest, rfl⟩ := List.forall₂_cons_left_iff.mp resolved
  cases rest
  exact ⟨f', head, by simp⟩

end PrettyFormat
