import Mathlib.Data.List.Forall2
import RobotSource.Position
/-!
# Views

A view says what to make of the texts and the places that a syntax tree stores; the shape of the tree
is left alone. Two trees that agree in a view differ at most in what the view gives up: `same` gives
up nothing, `unplaced` every place and `capitals` the case of letters. The view `lowered` moves a
tree down by some rows.
-/

namespace RobotSource

/-- What to make of the names and numbers, the literals, and the places of a tree. Literals are
strings, comments and messages, and in a listing the system variables. -/
structure View where
  name : String → String
  literal : String → String
  position : Position → Position

namespace View

/-- Everything as it is. -/
def same : View where
  name := id
  literal := id
  position := id

/-- Everything as it is, so many rows further down. -/
def lowered (rows : Nat) : View where
  name := id
  literal := id
  position p := ⟨p.line + rows, p.column⟩

/-- Everything but the places. -/
def unplaced : View where
  name := id
  literal := id
  position _ := .first

/-- Everything in capitals, at its place. -/
def capitals : View where
  name := String.toUpper
  literal := String.toUpper
  position := id

def span (v : View) (s : Span) : Span := ⟨v.position s.start, v.position s.stop⟩

@[simp] theorem name_same : same.name = id := rfl

@[simp] theorem literal_same : same.literal = id := rfl

@[simp] theorem span_same (s : Span) : same.span s = s := rfl

theorem span_cover (v : View) (s t : Span) : v.span (s.cover t) = (v.span s).cover (v.span t) := rfl

/-- What one view makes of what another one leaves. -/
def comp (v w : View) : View where
  name := v.name ∘ w.name
  literal := v.literal ∘ w.literal
  position := v.position ∘ w.position

section
variable (v w : View)

@[simp] theorem name_comp : (v.comp w).name = v.name ∘ w.name := rfl

@[simp] theorem literal_comp : (v.comp w).literal = v.literal ∘ w.literal := rfl

@[simp] theorem span_span (s : Span) : v.span (w.span s) = (v.comp w).span s := rfl

end

/-- A view that gives up the places takes no notice of the rows. -/
theorem comp_lowered {v : View} (hplace : ∀ p q, v.position p = v.position q) (rows : Nat) :
    v.comp (.lowered rows) = v := by
  obtain ⟨name, literal, position⟩ := v
  have hposition : position ∘ (lowered rows).position = position := funext fun p => hplace _ p
  rw [comp, hposition]
  rfl

end View

/-! ## Lists and options of trees -/

section
variable {α β γ : Type} {f : α → γ} {g : β → γ}

theorem map_eq_of_forall₂ {as : List α} {bs : List β}
    (h : List.Forall₂ (fun a b => f a = g b) as bs) : as.map f = bs.map g := by
  rwa [← List.forall₂_eq_eq_eq, List.forall₂_map_left_iff, List.forall₂_map_right_iff]

theorem map_eq_of_rel {a : Option α} {b : Option β} (h : Option.Rel (fun a b => f a = g b) a b) :
    a.map f = b.map g := by
  cases h with
  | some hab => rw [Option.map_some, Option.map_some, hab]
  | none => rfl

theorem getD_eq_of_rel {f : List α → γ} {g : List β → γ} {a : Option (List α)}
    {b : Option (List β)} (h : Option.Rel (fun as bs => f as = g bs) a b)
    (hnil : f [] = g [] := by rfl) : f (a.getD []) = g (b.getD []) := by
  cases h with
  | some hab => exact hab
  | none => exact hnil

theorem map_view_same {f : α → α} (h : ∀ a, f a = a) (as : List α) : as.map f = as := by
  rw [funext h, List.map_id']

theorem optionMap_view_same {f : α → α} (h : ∀ a, f a = a) (a : Option α) : a.map f = a := by
  rw [funext h, Option.map_id']

end

end RobotSource
