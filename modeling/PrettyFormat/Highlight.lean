import PrettyFormat.Render

/-! Color escapes close in nested order. `highlight(f, c)` is the only builder of COLOR
nodes, and makes them as a pair around `f`; so whatever `best` prints leaves no color
open and closes none it did not open. -/

namespace PrettyFormat

namespace Format

/-- A document whose COLOR nodes all come in `highlight` pairs. -/
inductive ColorsPaired : Format → Prop
  | nil : ColorsPaired .nil
  | nest {j : Int} {x : Format} : ColorsPaired x → ColorsPaired (.nest j x)
  | compose {parts : List Format} : (∀ x ∈ parts, ColorsPaired x) → ColorsPaired (.compose parts)
  | choice {x y : Format} : ColorsPaired x → ColorsPaired y → ColorsPaired (.choice x y)
  | line : ColorsPaired .line
  | text {t : String} : ColorsPaired (.text t)
  | highlight {f : Format} {c : Color} : ColorsPaired f → ColorsPaired (highlight f c)

theorem ColorsPaired.flatten {f : Format} (paired : f.ColorsPaired) : f.flatten.ColorsPaired := by
  induction paired with
  | nest _ ih => exact ih
  | compose _ ih => simpa [Format.flatten] using ColorsPaired.compose (by simpa using ih)
  | choice _ _ ih _ => exact ih
  | line => exact .text
  | highlight _ ih => exact .highlight ih
  | nil => exact .nil
  | text => exact .text

theorem ColorsPaired.group {f : Format} (paired : f.ColorsPaired) :
    (PrettyFormat.group f).ColorsPaired :=
  .choice paired.flatten paired

private theorem forall₂_resolves_mem {P Q : Format → Prop} {l l' : List Format}
    (resolved : List.Forall₂ Resolves l l') (parts : ∀ x ∈ l, P x)
    (kept : ∀ x ∈ l, P x → ∀ x', Resolves x x' → Q x') : ∀ x' ∈ l', Q x' := by
  induction resolved with
  | nil => simp
  | cons head _ ih =>
    simp only [List.mem_cons, forall_eq_or_imp] at parts kept ⊢
    exact ⟨kept.1 parts.1 _ head, ih parts.2 kept.2⟩

theorem ColorsPaired.resolves {f f' : Format} (paired : f.ColorsPaired) (resolved : Resolves f f') :
    f'.ColorsPaired := by
  induction paired generalizing f' with
  | nest _ ih => cases resolved with | nest body => exact .nest (ih body)
  | compose parts ih =>
    cases resolved with
    | compose each =>
      exact .compose (forall₂_resolves_mem each parts fun x mem _ _ body => ih x mem body)
  | choice _ _ ihx ihy =>
    cases resolved with
    | first body => exact ihx body
    | second body => exact ihy body
  | highlight _ ih =>
    cases resolved with
    | compose each =>
      rcases each with _ | ⟨opening, _ | ⟨body, _ | ⟨closing, _ | _⟩⟩⟩
      cases opening
      cases closing
      exact .highlight (ih body)
  | nil => cases resolved; exact .nil
  | line => cases resolved; exact .line
  | text => cases resolved; exact .text

end Format

open Format

/-- Whether a list of printed nodes, with `depth` colors open before it, closes each
COLOR_BEGIN by a later COLOR_END in nested order, and closes nothing more. -/
def colorsClose (depth : Nat) : List Format → Bool
  | [] => depth == 0
  | .colorBegin _ :: rest => colorsClose (depth + 1) rest
  | .colorEnd :: rest => depth != 0 && colorsClose (depth - 1) rest
  | _ :: rest => colorsClose depth rest

private theorem colorsClose_flatten {g : Format → List Format} {l : List Format}
    (each : ∀ x ∈ l, ∀ depth rest, colorsClose depth (g x ++ rest) = colorsClose depth rest)
    (depth : Nat) (rest : List Format) :
    colorsClose depth ((l.map g).flatten ++ rest) = colorsClose depth rest := by
  induction l generalizing depth with
  | nil => rfl
  | cons x l ih =>
    simp only [List.mem_cons, forall_eq_or_imp] at each
    rw [List.map_cons, List.flatten_cons, List.append_assoc, each.1, ih each.2]

/-- The rendering of a document whose colors are paired leaves the count of open colors
as it found it, and never below. -/
theorem colorsClose_render {f : Format} (paired : f.ColorsPaired) (i : Int) (depth : Nat)
    (rest : List Format) : colorsClose depth (render i f ++ rest) = colorsClose depth rest := by
  induction paired generalizing i depth rest with
  | nest _ ih => exact ih _ _ _
  | compose _ ih =>
    simpa [render] using colorsClose_flatten (fun x mem => ih x mem i) depth rest
  | choice _ _ ih _ => exact ih _ _ _
  | @highlight f c _ ih =>
    have rendered : render i (highlight f c) = .colorBegin c :: (render i f ++ [.colorEnd]) := by
      simp [highlight, render]
    rw [rendered, List.cons_append, List.append_assoc, colorsClose, ih]
    simp [colorsClose]
  | nil => rfl
  | line => rfl
  | text => rfl

/-- Whatever `best` prints from a document whose colors come in `highlight` pairs closes
every color it opens, in nested order, and closes no other. -/
theorem best_closes_colors {f : Format} (paired : f.ColorsPaired) {w k : UInt32}
    {printed : Sexpr} (success : best w k f.toSexpr = some printed) :
    ∃ out, printed = encodeOutput out ∧ colorsClose 0 out = true := by
  rw [best_encode] at success
  obtain ⟨out, typed, rfl⟩ := Option.map_eq_some'.mp success
  obtain ⟨f', resolved, rfl⟩ := Typed.best_resolves typed
  exact ⟨_, rfl, by simpa using colorsClose_render (paired.resolves resolved) 0 0 []⟩

theorem best_highlight_group_closes :
    (highlight (group (.text "a" + .line + .text "b")) .red).ColorsPaired ∧
      best 80 0 (highlight (group (.text "a" + .line + .text "b")) .red).toSexpr =
        some (encodeOutput [.colorBegin .red, .text "a", .text " ", .text "b", .colorEnd]) ∧
      ∃ out, encodeOutput [.colorBegin .red, .text "a", .text " ", .text "b", .colorEnd] =
        encodeOutput out ∧ colorsClose 0 out = true := by
  have paired : (highlight (group (.text "a" + .line + .text "b")) .red).ColorsPaired :=
    .highlight (.group (.compose (List.forall_mem_cons.mpr ⟨.compose (List.forall_mem_cons.mpr
      ⟨.text, List.forall_mem_singleton.mpr .line⟩), List.forall_mem_singleton.mpr .text⟩)))
  have success : best 80 0 (highlight (group (.text "a" + .line + .text "b")) .red).toSexpr =
      some (encodeOutput [.colorBegin .red, .text "a", .text " ", .text "b", .colorEnd]) := by
    rw [best_encode, Typed.best,
      Typed.be_of_beFuel 20 (some [.colorBegin .red, .text "a", .text " ", .text "b", .colorEnd])
        (by decide)]
    rfl
  exact ⟨paired, success, best_closes_colors paired success⟩

end PrettyFormat
