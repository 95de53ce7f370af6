import ScheduleExplorer.Strategy.Points
import Mathlib.Data.List.Range
import Mathlib.Logic.Equiv.Basic
import Mathlib.Order.Lattice.Nat
import Std.Data.TreeSet.Lemmas

/-!
# Points that are drawn

The shuffle of a range is a list of swaps, one for each number that it draws. Swapping changes no
number, so the first numbers of the shuffled range are different ones of the range: as many points
are drawn as are asked for, unless the range is shorter.

Where a number ends up can be followed through the swaps without the others. A point that is moved
forward stays a point of its own.
-/

namespace ScheduleExplorer

namespace Points

variable {γ : Type} [RandomSource γ]

/-! ### Shuffling -/

/-- Swaps every place from `last` down to 1 with the next one of some places. -/
def swapAll : Nat → List Nat → Array Nat → Array Nat
  | 0, _, range => range
  | _ + 1, [], range => range
  | last + 1, place :: places, range =>
    swapAll last places (range.swapIfInBounds (last + 1) place)

/-- A shuffle draws all places below the length and swaps them in. -/
theorem shuffle_eq (length last : Nat) (range : Array Nat) (source : γ) :
    shuffle length last range source =
      (swapAll last (RandomSource.nextMany length last source).1 range,
        (RandomSource.nextMany length last source).2) := by
  induction last generalizing range source with
  | zero => rfl
  | succ last ih =>
    rw [shuffle]
    exact ih _ _

/-- Swapping two places changes no number. -/
theorem perm_swapIfInBounds (range : Array Nat) (i j : Nat) :
    (range.swapIfInBounds i j).toList.Perm range.toList := by
  rw [Array.swapIfInBounds]
  split
  · split
    · exact (Array.swap_perm _ _).toList
    · exact .refl _
  · exact .refl _

/-- Swapping places changes no number. -/
theorem perm_swapAll (last : Nat) (places : List Nat) (range : Array Nat) :
    (swapAll last places range).toList.Perm range.toList := by
  induction last generalizing places range with
  | zero => exact .refl _
  | succ last ih =>
    cases places with
    | nil => exact .refl _
    | cons place places => exact (ih _ _).trans (perm_swapIfInBounds range (last + 1) place)

/-- The range below a length with some places swapped. -/
def shuffled (length : Nat) (places : List Nat) : List Nat :=
  (swapAll (length - 1) places (Array.range length)).toList

/-- A shuffle has the positions of the whole range. -/
theorem perm_shuffled (length : Nat) (places : List Nat) :
    (shuffled length places).Perm (List.range length) :=
  (perm_swapAll _ _ _).trans (.of_eq Array.toList_range)

/-- A shuffle has no position twice. -/
theorem nodup_shuffled (length : Nat) (places : List Nat) : (shuffled length places).Nodup :=
  (perm_shuffled length places).nodup_iff.mpr List.nodup_range

/-! ### Samples -/

/-- The draws that a sample makes. -/
def draws (length : Nat) (source : γ) : List Nat :=
  (RandomSource.nextMany length (length - 1) source).1

/-- A sample is the beginning of the shuffled range. -/
theorem fst_sample (length count : Nat) (source : γ) :
    (sample length count source).1 =
      Std.TreeSet.ofList ((shuffled length (draws length source)).take count) := by
  rw [sample, shuffle_eq]
  rfl

/-- A sample leaves its source as the draws do. -/
theorem snd_sample (length count : Nat) (source : γ) :
    (sample length count source).2 = (RandomSource.nextMany length (length - 1) source).2 := by
  rw [sample, shuffle_eq]

/-- A sample has the first positions of the shuffle. -/
theorem mem_sample {length count point : Nat} {source : γ} :
    point ∈ (sample length count source).1 ↔
      point ∈ (shuffled length (draws length source)).take count := by
  rw [fst_sample, Std.TreeSet.mem_ofList, List.contains_iff_mem]

/-- As many points are drawn as are asked for, or the whole range if it is shorter. -/
theorem size_sample (length count : Nat) (source : γ) :
    (sample length count source).1.size = min count length := by
  have hnodup := (nodup_shuffled length (draws length source)).sublist
    (List.take_sublist count _)
  rw [fst_sample, Std.TreeSet.size_ofList, List.length_take,
    (perm_shuffled length (draws length source)).length_eq, List.length_range]
  exact hnodup.imp fun hne heq => hne (Nat.compare_eq_eq.mp heq)

/-- Every point that is drawn lies in the range. -/
theorem lt_of_mem_sample {length count point : Nat} {source : γ}
    (h : point ∈ (sample length count source).1) : point < length := by
  have hmem := List.mem_of_mem_take (mem_sample.mp h)
  exact List.mem_range.mp ((perm_shuffled _ _).mem_iff.mp hmem)

/-! ### Moving a point -/

/-- The first gap from a step on is none of the points. -/
theorem firstGap_spec {points : List Nat} (h : points.Pairwise (· < ·)) (step : Nat) :
    step ≤ firstGap step points ∧ firstGap step points ∉ points := by
  induction points generalizing step with
  | nil => exact ⟨Nat.le_refl _, List.not_mem_nil⟩
  | cons point rest ih =>
    obtain ⟨hlater, hrest⟩ := List.pairwise_cons.mp h
    rw [firstGap]
    split
    · next hhere =>
      obtain ⟨hle, hgap⟩ := ih hrest (step + 1)
      exact ⟨by omega, List.not_mem_cons_of_ne_of_not_mem (by omega) hgap⟩
    · split
      · obtain ⟨hle, hgap⟩ := ih hrest step
        exact ⟨hle, List.not_mem_cons_of_ne_of_not_mem (by omega) hgap⟩
      · refine ⟨Nat.le_refl _, List.not_mem_cons_of_ne_of_not_mem (by omega) fun hmem => ?_⟩
        have hlt := hlater step hmem
        omega

/-- A point that is moved forward goes to a later step, and the others stay where they are. -/
theorem moveForward_spec {points : Points} {step : Nat} (h : step ∈ points) :
    (points.moveForward step).size = points.size ∧
      ∀ point ∈ points, point < step → point ∈ points.moveForward step := by
  have hordered : (points.erase step).toList.Pairwise (· < ·) :=
    Std.TreeSet.ordered_toList.imp Nat.compare_eq_lt.mp
  have hcontained : points.contains step = true := h
  have hgap : ¬ (points.erase step).contains (firstGap (step + 1) (points.erase step).toList) :=
    fun hmem => (firstGap_spec hordered (step + 1)).2 (Std.TreeSet.mem_toList.mpr hmem)
  have hpos : 0 < points.size := by
    rw [← Std.TreeSet.length_toList]
    exact List.length_pos_of_mem (Std.TreeSet.mem_toList.mpr h)
  refine ⟨?_, fun point hpoint hlt => ?_⟩
  · rw [moveForward, Std.TreeSet.size_insert, if_neg hgap, Std.TreeSet.size_erase,
      if_pos hcontained]
    omega
  · rw [moveForward, Std.TreeSet.mem_insert, Std.TreeSet.mem_erase]
    exact .inr ⟨fun hsame => by rw [Nat.compare_eq_eq] at hsame; omega, hpoint⟩

/-! ### Following one number -/

/-- Where the number at a place is after some places are swapped. -/
def placeAfter : Nat → List Nat → Nat → Nat
  | 0, _, start => start
  | _ + 1, [], start => start
  | last + 1, place :: places, start =>
    placeAfter last places (Equiv.swap (last + 1) place start)

/-- A swap takes the number at a place to the place that it is swapped with. -/
theorem getElem?_swapIfInBounds {range : Array Nat} {i j : Nat} (hi : i < range.size)
    (hj : j < range.size) (start : Nat) :
    (range.swapIfInBounds i j)[Equiv.swap i j start]? = range[start]? := by
  rcases eq_or_ne start i with rfl | hni
  · rw [Equiv.swap_apply_left]
    simp [Array.swapIfInBounds, hi, hj]
  · rcases eq_or_ne start j with rfl | hnj
    · rw [Equiv.swap_apply_right]
      simp [Array.swapIfInBounds, hi, hj]
    · rw [Equiv.swap_apply_of_ne_of_ne hni hnj]
      simp [Array.swapIfInBounds, hi, hj, Array.getElem?_swap, hni.symm, hnj.symm]

/-- A number is where its place has gone. -/
theorem getElem?_swapAll {last : Nat} {places : List Nat} {range : Array Nat}
    (hlast : last < range.size) (hplaces : ∀ place ∈ places, place < range.size) (start : Nat) :
    (swapAll last places range)[placeAfter last places start]? = range[start]? := by
  induction last generalizing places range start with
  | zero => rfl
  | succ last ih =>
    cases places with
    | nil => rfl
    | cons place places =>
      rw [List.forall_mem_cons] at hplaces
      rw [swapAll, placeAfter, ih, getElem?_swapIfInBounds hlast hplaces.1]
      · rw [Array.size_swapIfInBounds]
        omega
      · rw [Array.size_swapIfInBounds]
        exact hplaces.2

/-- A number of the range is among the first of the shuffled range if its place has gone there. -/
theorem mem_take_shuffled {length count start : Nat} {places : List Nat}
    (hplaces : ∀ place ∈ places, place < length) (hstart : start < length) :
    start ∈ (shuffled length places).take count ↔
      placeAfter (length - 1) places start < count := by
  have hfound : (shuffled length places)[placeAfter (length - 1) places start]? = some start := by
    have hsize : (Array.range length).size = length := Array.size_range
    rw [shuffled, Array.getElem?_toList, getElem?_swapAll (by omega) (by rwa [hsize]),
      Array.getElem?_range, if_pos hstart]
  constructor
  · intro hmem
    obtain ⟨place, hplace⟩ := List.mem_iff_getElem?.mp hmem
    rw [List.getElem?_take, Option.ite_none_right_eq_some] at hplace
    obtain ⟨hlt, hat⟩ := hplace
    have hlength := (List.getElem?_eq_some_iff.mp hat).1
    -- The shuffled numbers are different, so the number is at one place only.
    have hsame : place = placeAfter (length - 1) places start :=
      (List.getElem?_inj hlength (nodup_shuffled length places)).mp (hat.trans hfound.symm)
    exact hsame ▸ hlt
  · intro hlt
    exact List.mem_iff_getElem?.mpr ⟨_, (List.getElem?_take_of_lt hlt).trans hfound⟩

end Points

end ScheduleExplorer
