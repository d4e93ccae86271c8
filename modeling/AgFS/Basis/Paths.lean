import Mathlib.Data.List.Infix
import Mathlib.Data.List.DropRight

/-! Path names and their lexical normal form. -/
namespace Paths

def slash : UInt8 := 0x2F

def dot : List UInt8 := [0x2E]

def dotDot : List UInt8 := [0x2E, 0x2E]

/-- The components of a path name: the pieces between its slashes that are not empty. -/
def components (path : List UInt8) : List (List UInt8) :=
  (path.splitOnP (· == slash)).filter (· ≠ [])

@[simp] theorem components_nil : components [] = [] := rfl

theorem components_append_slash (a b : List UInt8) :
    components (a ++ slash :: b) = components a ++ components b := by
  have hsplit := List.splitOnP_append_cons (p := fun x => x == slash) a b (beq_self_eq_true slash)
  rw [components, hsplit, List.filter_append]
  rfl

theorem components_slash (b : List UInt8) : components (slash :: b) = components b :=
  components_append_slash [] b

theorem components_name {name : List UInt8} (hne : name ≠ []) (hs : slash ∉ name) :
    components name = [name] := by
  have hplain : ∀ b ∈ name, (b == slash) = false := by
    intro b hb
    refine beq_false_of_ne ?_
    rintro rfl
    exact hs hb
  rw [components, List.splitOnP_eq_singleton hplain]
  simp [hne]

def isAbsolute (path : List UInt8) : Bool := path.head? == some slash

/-- Where a path leads: some directories up, and then down through names. -/
structure Place where
  absolute : Bool
  ups : Nat
  names : List (List UInt8)
  deriving DecidableEq

namespace Place

def here : Place := ⟨false, 0, []⟩

/-- One component further. Nothing is above the root. -/
def step (p : Place) (c : List UInt8) : Place :=
  if c = dot then p
  else if c = dotDot then
    if p.names ≠ [] then { p with names := p.names.dropLast }
    else if p.absolute then p
    else { p with ups := p.ups + 1 }
  else { p with names := p.names ++ [c] }

theorem step_name {c : List UInt8} (hdot : c ≠ dot) (hdots : c ≠ dotDot) (p : Place) :
    p.step c = { p with names := p.names ++ [c] } := by
  rw [step, if_neg hdot, if_neg hdots]

@[simp] theorem step_absolute (p : Place) (c : List UInt8) : (p.step c).absolute = p.absolute := by
  unfold step
  split_ifs <;> rfl

theorem foldl_absolute (cs : List (List UInt8)) (p : Place) :
    (cs.foldl step p).absolute = p.absolute := by
  induction cs generalizing p with
  | nil => rfl
  | cons c cs ih => exact (ih _).trans (step_absolute p c)

/-- A walk from `here`, made from another place. -/
def join (p r : Place) : Place where
  absolute := p.absolute
  ups := if p.absolute then p.ups else p.ups + (r.ups - p.names.length)
  names := p.names.take (p.names.length - r.ups) ++ r.names

theorem join_here (p : Place) : p.join here = p := by
  simp [join, here]

theorem step_join_up (p : Place) {r : Place} (hn : r.names = []) :
    (p.join r).step dotDot = p.join { r with ups := r.ups + 1 } := by
  have hne : dotDot ≠ dot := by decide
  rw [step, if_neg hne, if_pos rfl]
  by_cases hlt : r.ups < p.names.length
  · have hnames : (p.join r).names ≠ [] := by
      simp [join, hn, ← List.length_pos_iff]
      omega
    rw [if_pos hnames]
    have hdrop : (p.names.take (p.names.length - r.ups)).dropLast =
        p.names.take (p.names.length - (r.ups + 1)) := by
      rw [List.dropLast_eq_take, List.length_take, List.take_take]
      congr 1
      omega
    have hzero : r.ups - p.names.length = 0 := by omega
    have hzero' : r.ups + 1 - p.names.length = 0 := by omega
    simp only [join, hn, List.append_nil, hdrop, hzero, hzero']
  · have hnames : (p.join r).names = [] := by
      simp [join, hn]
      omega
    have htake : p.names.length - (r.ups + 1) = 0 := by omega
    have htake' : p.names.length - r.ups = 0 := by omega
    rw [if_neg (not_not_intro hnames)]
    by_cases habs : p.absolute
    · rw [if_pos (by exact habs)]
      simp [join, hn, habs, htake, htake']
    · rw [if_neg (by exact habs)]
      have hups : p.ups + (r.ups - p.names.length) + 1 =
          p.ups + (r.ups + 1 - p.names.length) := by omega
      simp [join, hn, habs, htake, htake', hups]

theorem step_join (p : Place) {r : Place} (hr : r.absolute = false) (c : List UInt8) :
    (p.join r).step c = p.join (r.step c) := by
  by_cases hdot : c = dot
  · simp [step, hdot]
  by_cases hdots : c = dotDot
  · subst hdots
    by_cases hn : r.names = []
    · rw [step_join_up p hn, step, if_neg hdot, if_pos rfl, if_neg (not_not_intro hn), hr]
      rfl
    · have hnames : (p.join r).names ≠ [] := by simp [join, hn]
      rw [step, if_neg hdot, if_pos rfl, if_pos hnames, step, if_neg hdot, if_pos rfl, if_pos hn]
      simp [join, List.dropLast_append_of_ne_nil hn]
  · rw [step_name hdot hdots, step_name hdot hdots]
    simp [join]

theorem foldl_step (p : Place) (cs : List (List UInt8)) :
    cs.foldl step p = p.join (cs.foldl step here) := by
  induction cs using List.reverseRecOn with
  | nil => exact p.join_here.symm
  | append_singleton cs c ih =>
    rw [List.foldl_append, List.foldl_append, ih]
    exact step_join p (foldl_absolute cs here) c

/-- `q.Under p`: the place `q` is `p` or lies beneath it. -/
def Under (q p : Place) : Prop := q.absolute = p.absolute ∧ q.ups = p.ups ∧ p.names <+: q.names

instance (q p : Place) : Decidable (q.Under p) :=
  inferInstanceAs (Decidable (_ ∧ _ ∧ _))

/-- A walk that goes up ends under the place it began at only if it comes back down through
the names it has left. -/
theorem join_under_iff (p r : Place) :
    (p.join r).Under p ↔ (p.absolute ∨ r.ups ≤ p.names.length) ∧
      p.names.drop (p.names.length - r.ups) <+: r.names := by
  have hups : (p.join r).ups = p.ups ↔ p.absolute ∨ r.ups ≤ p.names.length := by
    by_cases habs : p.absolute
    · simp [join, habs]
    · simp only [join, habs, if_false, Bool.false_eq_true, false_or]
      omega
  have hnames : p.names <+: (p.join r).names ↔
      p.names.drop (p.names.length - r.ups) <+: r.names := by
    conv_lhs => rw [← List.take_append_drop (p.names.length - r.ups) p.names]
    exact List.prefix_append_right_inj _
  rw [Under, hups, hnames]
  exact and_iff_right rfl

end Place

/-- The lexical normal form of a path. -/
def normal (path : List UInt8) : Place :=
  (components path).foldl Place.step ⟨isAbsolute path, 0, []⟩

end Paths
