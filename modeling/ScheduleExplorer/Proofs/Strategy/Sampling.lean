import ScheduleExplorer.Proofs.Strategy.Points
import Mathlib.Algebra.BigOperators.Group.Finset.Basic
import Mathlib.Algebra.BigOperators.Ring.Finset
import Mathlib.Data.Finset.Powerset
import Mathlib.Data.Nat.Choose.Basic
import Mathlib.Data.Set.Card
import Mathlib.Tactic.Ring

/-!
# How evenly points are drawn

If every draw of a shuffle is uniform over the range that it is asked for, the chance of a set of
points is the number of draw sequences that return it. A shuffle that draws each place among those
up to it returns every set equally often. This one draws each place below the full length.

Follow the first number of the range. It starts where no swap begins, so it moves only when it is
drawn, and the sequences that leave it out can be counted exactly. An even choice would make their
number a multiple of the length. It differs from such a multiple by a power of the number before the
length, which is prime to it, so only the choices without an alternative and those among two numbers
are even.
-/

namespace ScheduleExplorer

/-! ### Draw sequences -/

/-- Draws that are laid out beforehand. They are handed out in order whatever the bounds are, and
the bounds are noted, the last one first. -/
structure LaidOut where
  pending : List Nat
  asked : List Nat := []

instance : RandomSource LaidOut where
  seed _ := 0
  reseed _ source := source
  nextBounded bound source :=
    (source.pending.headD 0, ⟨source.pending.tail, bound :: source.asked⟩)
  nextDouble source := (0, source)

namespace LaidOut

/-- As many draws are used as are asked for, each with the same bound. -/
theorem snd_nextMany (bound count : Nat) (source : LaidOut) :
    (RandomSource.nextMany bound count source).2 =
      ⟨source.pending.drop count, List.replicate count bound ++ source.asked⟩ := by
  induction count generalizing source with
  | zero => rfl
  | succ count ih =>
    refine (ih ⟨source.pending.tail, bound :: source.asked⟩).trans ?_
    rw [List.drop_tail, List.replicate_succ', List.append_assoc]
    rfl

/-- Where all draws are used, they are what is drawn. -/
theorem fst_nextMany (bound : Nat) (pending asked : List Nat) :
    (RandomSource.nextMany bound pending.length (⟨pending, asked⟩ : LaidOut)).1 = pending := by
  induction pending generalizing asked with
  | nil => rfl
  | cons first rest ih => exact congrArg (first :: ·) (ih (bound :: asked))

end LaidOut

namespace Points

/-- The points as a finite set. -/
def toFinset (points : Points) : Finset Nat :=
  points.toList.toFinset

/-- The finite set has the points. -/
theorem mem_toFinset {points : Points} {point : Nat} : point ∈ points.toFinset ↔ point ∈ points := by
  rw [toFinset, List.mem_toFinset, Std.TreeSet.mem_toList]

/-- The points that are sampled with some draws. -/
def sampled (length count : Nat) (draws : List Nat) : Finset Nat :=
  (sample length count (⟨draws, []⟩ : LaidOut)).1.toFinset

/-- Some draws serve a sample if all of them are used, and each lies in the range that it is asked
for. -/
def Serves (length count : Nat) (draws : List Nat) : Prop :=
  let source := (sample length count (⟨draws, []⟩ : LaidOut)).2
  source.pending = [] ∧ List.Forall₂ (· < ·) draws source.asked.reverse

/-- The draw sequences that return a set of points. -/
def returning (length count : Nat) (points : Finset Nat) : Set (List Nat) :=
  {draws | Serves length count draws ∧ sampled length count draws = points}

/-- Sampling is unbiased if all sets of so many points of the range are returned by the same number of
draw sequences. -/
def IsUnbiased (length count : Nat) : Prop :=
  ∀ points ∈ (Finset.range length).powersetCard count,
    ∀ others ∈ (Finset.range length).powersetCard count,
      (returning length count points).ncard = (returning length count others).ncard

/-! ### Counting draw sequences -/

/-- The sequences of so many draws below a bound. -/
def tapes (bound : Nat) : Nat → Finset (List Nat)
  | 0 => {[]}
  | count + 1 => (Finset.range bound ×ˢ tapes bound count).image fun (first, rest) => first :: rest

/-- The tapes are the sequences of draws below the bound. -/
theorem mem_tapes {bound count : Nat} {draws : List Nat} :
    draws ∈ tapes bound count ↔ draws.length = count ∧ ∀ draw ∈ draws, draw < bound := by
  induction count generalizing draws with
  | zero => simp +contextual [tapes]
  | succ count ih =>
    cases draws with
    | nil => simp [tapes]
    | cons first rest => simp [tapes, ih, and_left_comm]

/-- Sequences are counted by their first draw. -/
theorem card_filter_tapes_succ (bound count : Nat) (P : List Nat → Prop) [DecidablePred P] :
    ((tapes bound (count + 1)).filter P).card =
      ∑ first ∈ Finset.range bound,
        ((tapes bound count).filter fun rest => P (first :: rest)).card := by
  have hinj : Function.Injective fun draws : Nat × List Nat => draws.1 :: draws.2 :=
    fun _ _ heq => Prod.ext (List.cons.inj heq).1 (List.cons.inj heq).2
  rw [tapes, Finset.filter_image, Finset.card_image_of_injective _ hinj, Finset.card_filter,
    Finset.sum_product]
  simp only [Finset.card_filter]

/-- There is one tape for every sequence of draws. -/
theorem card_tapes (bound count : Nat) : (tapes bound count).card = bound ^ count := by
  induction count with
  | zero => rfl
  | succ count ih =>
    have hsplit := card_filter_tapes_succ bound count fun _ => True
    simpa [ih, pow_succ'] using hsplit

/-- A list is below a constant list if it is as long and all its members are below the constant. -/
theorem forall₂_lt_replicate {draws : List Nat} {count bound : Nat} :
    List.Forall₂ (· < ·) draws (List.replicate count bound) ↔
      draws.length = count ∧ ∀ draw ∈ draws, draw < bound := by
  induction count generalizing draws with
  | zero => cases draws <;> simp
  | succ count ih =>
    cases draws with
    | nil => simp
    | cons first rest => simp [List.replicate_succ, ih, and_left_comm]

/-- The draws that serve a sample: one less than the length, all below the length. -/
theorem serves_iff {length count : Nat} {draws : List Nat} :
    Serves length count draws ↔ draws ∈ tapes length (length - 1) := by
  rw [Serves, snd_sample, LaidOut.snd_nextMany, List.append_nil, List.reverse_replicate,
    forall₂_lt_replicate, mem_tapes, List.drop_eq_nil_iff]
  exact ⟨And.right, fun h => ⟨h.1.le, h⟩⟩

/-- The number of draw sequences that return a set of points. -/
theorem ncard_returning (length count : Nat) (points : Finset Nat) :
    (returning length count points).ncard =
      ((tapes length (length - 1)).filter fun draws => sampled length count draws = points).card := by
  rw [← Set.ncard_coe_finset]
  congr 1
  ext draws
  simp [returning, serves_iff]

/-! ### What is sampled -/

variable {length count : Nat}

/-- As many points of the range are sampled as are asked for. -/
theorem sampled_mem_powersetCard (h : count ≤ length) (draws : List Nat) :
    sampled length count draws ∈ (Finset.range length).powersetCard count := by
  rw [Finset.mem_powersetCard]
  refine ⟨fun point hpoint => Finset.mem_range.mpr (lt_of_mem_sample (mem_toFinset.mp hpoint)), ?_⟩
  have hdistinct : (sample length count (⟨draws, []⟩ : LaidOut)).1.toList.Nodup :=
    Std.TreeSet.distinct_toList.imp fun hne heq => hne (Nat.compare_eq_eq.mpr heq)
  rw [sampled, toFinset, List.toFinset_card_of_nodup hdistinct, Std.TreeSet.length_toList, size_sample,
    Nat.min_eq_left h]

/-- A number of the range is sampled if its place goes to one of the first. -/
theorem mem_sampled {draws : List Nat} (hdraws : draws ∈ tapes length (length - 1)) {start : Nat}
    (hstart : start < length) :
    start ∈ sampled length count draws ↔ placeAfter (length - 1) draws start < count := by
  obtain ⟨hlength, hlt⟩ := mem_tapes.mp hdraws
  have hused : Points.draws length (⟨draws, []⟩ : LaidOut) = draws := by
    rw [Points.draws, ← hlength, LaidOut.fst_nextMany]
  rw [sampled, mem_toFinset, mem_sample, hused, mem_take_shuffled hlt hstart]

/-- The draw sequences are shared out among the sets of points that they return. -/
theorem card_filter_sampled (length count : Nat) (family : Finset (Finset Nat)) :
    ((tapes length (length - 1)).filter fun draws => sampled length count draws ∈ family).card =
      ∑ points ∈ family, (returning length count points).ncard := by
  have hmaps : Set.MapsTo (sampled length count)
      ((tapes length (length - 1)).filter fun draws => sampled length count draws ∈ family) family :=
    fun draws hdraws => (Finset.mem_filter.mp hdraws).2
  rw [Finset.card_eq_sum_card_fiberwise hmaps]
  refine Finset.sum_congr rfl fun points hpoints => ?_
  rw [ncard_returning, Finset.filter_filter]
  congr 1
  ext draws
  simp only [Finset.mem_filter, and_congr_right_iff, and_iff_right_iff_imp]
  rintro - rfl
  exact hpoints

/-! ### Where the first number goes -/

/-- The number of draw sequences whose swaps take the number at a place out of the first places. -/
def leavingOut (length count last start : Nat) : Nat :=
  ((tapes length last).filter fun places => count ≤ placeAfter last places start).card

/-- Before any swap the number is where it starts. -/
@[simp] theorem leavingOut_zero (length count start : Nat) :
    leavingOut length count 0 start = if count ≤ start then 1 else 0 := by
  by_cases h : count ≤ start <;> simp [leavingOut, tapes, placeAfter, h]

variable {m c last start : Nat}

/-- A number whose place is not the next to be swapped goes there if it is drawn, and else stays. -/
theorem leavingOut_succ (hstart : start < m + 1) (hne : start ≠ last + 1) :
    leavingOut (m + 1) count (last + 1) start =
      leavingOut (m + 1) count last (last + 1) + m * leavingOut (m + 1) count last start := by
  have hdrawn (place : Nat) : ((tapes (m + 1) last).filter fun rest =>
      count ≤ placeAfter (last + 1) (place :: rest) start).card =
        leavingOut (m + 1) count last (if place = start then last + 1 else start) := by
    have hplace : Equiv.swap (last + 1) place start = if place = start then last + 1 else start := by
      split
      · next heq => rw [heq, Equiv.swap_apply_right]
      · next hother => rw [Equiv.swap_apply_of_ne_of_ne hne (Ne.symm hother)]
    simp only [placeAfter, hplace, leavingOut]
  have hmem : start ∈ Finset.range (m + 1) := Finset.mem_range.mpr hstart
  rw [leavingOut, card_filter_tapes_succ, ← Finset.add_sum_erase _ _ hmem, hdrawn, if_pos rfl]
  congr 1
  rw [Finset.sum_const_nat fun place hplace =>
      (hdrawn place).trans (by rw [if_neg (Finset.ne_of_mem_erase hplace)]),
    Finset.card_erase_of_mem hmem, Finset.card_range, Nat.add_sub_cancel]

/-- While the places to be swapped are among the first, a number that is there and is not to be
swapped stays among them. -/
theorem leavingOut_eq_zero (hcount : count ≤ m + 1) (hlast : last < count) (hstart : start < count)
    (hfree : start = 0 ∨ last < start) : leavingOut (m + 1) count last start = 0 := by
  induction last generalizing start with
  | zero => rw [leavingOut_zero, if_neg (by omega)]
  | succ last ih =>
    rw [leavingOut_succ (by omega) (by omega), ih (by omega) (by omega) (by omega),
      ih (by omega) hstart (by omega), Nat.mul_zero]

/-- While the places to be swapped are among the first, a number that is not there stays out unless
it is drawn. -/
theorem leavingOut_outside (hlast : last ≤ c) (hstart : c < start) (hlength : start < m + 1) :
    leavingOut (m + 1) (c + 1) last start = m ^ last := by
  induction last with
  | zero => rw [leavingOut_zero, if_pos (Nat.succ_le_of_lt hstart), pow_zero]
  | succ last ih =>
    rw [leavingOut_succ hlength (by omega), ih (by omega),
      leavingOut_eq_zero (by omega) (by omega) (by omega) (by omega), Nat.zero_add, pow_succ']

/-- Swaps at places that are not among the first cannot bring a number there that has been
swapped. -/
theorem leavingOut_swapped (extra : Nat) (hstart : c + extra < start) (hlength : start < m + 1) :
    leavingOut (m + 1) (c + 1) (c + extra) start = (m + 1) ^ extra * m ^ c := by
  induction extra generalizing start with
  | zero =>
    rw [Nat.add_zero c] at hstart ⊢
    rw [leavingOut_outside le_rfl hstart hlength, pow_zero, Nat.one_mul]
  | succ extra ih =>
    rw [← Nat.add_assoc, leavingOut_succ hlength (by omega), ih (by omega) (by omega),
      ih (by omega) hlength]
    ring

/-- The draw sequences that leave out the first number, counted without a subtraction. -/
theorem leavingOut_first (extra : Nat) (hlength : c + extra < m + 1) :
    leavingOut (m + 1) (c + 1) (c + extra) 0 + m ^ (c + extra) = (m + 1) ^ extra * m ^ c := by
  induction extra with
  | zero =>
    rw [leavingOut_eq_zero (by omega) (by omega) (by omega) (.inl rfl), Nat.zero_add, pow_zero,
      Nat.one_mul, Nat.add_zero]
  | succ extra ih =>
    rw [← Nat.add_assoc, leavingOut_succ (Nat.succ_pos m) (by omega),
      leavingOut_swapped extra (by omega) (by omega)]
    calc (m + 1) ^ extra * m ^ c + m * leavingOut (m + 1) (c + 1) (c + extra) 0 + m ^ (c + extra + 1)
        = (m + 1) ^ extra * m ^ c +
            m * (leavingOut (m + 1) (c + 1) (c + extra) 0 + m ^ (c + extra)) := by ring
      _ = (m + 1) ^ (extra + 1) * m ^ c := by
          rw [ih (by omega)]
          ring

/-- The draw sequences whose sample leaves out zero. -/
theorem card_filter_zero_not_mem (hcount : c ≤ m) :
    ((tapes (m + 1) m).filter fun draws => 0 ∉ sampled (m + 1) (c + 1) draws).card + m ^ m =
      (m + 1) ^ (m - c) * m ^ c := by
  have hfollowed : ((tapes (m + 1) m).filter fun draws => 0 ∉ sampled (m + 1) (c + 1) draws).card =
      leavingOut (m + 1) (c + 1) m 0 := by
    refine congrArg Finset.card (Finset.filter_congr fun draws hdraws => ?_)
    rw [mem_sampled hdraws (Nat.succ_pos m), Nat.not_lt, Nat.add_sub_cancel]
  have hfirst := leavingOut_first (m := m) (c := c) (m - c) (by omega)
  rwa [Nat.add_sub_cancel' hcount, ← hfollowed] at hfirst

/-! ### When sampling is unbiased -/

/-- If sampling is unbiased, every family of sets of points has its share of the draw sequences. -/
theorem IsUnbiased.exists_share (heven : IsUnbiased length count) (hcount : count ≤ length) :
    ∃ share, ∀ family ⊆ (Finset.range length).powersetCard count,
      ((tapes length (length - 1)).filter fun draws => sampled length count draws ∈ family).card =
        family.card * share := by
  have hsome : Finset.range count ∈ (Finset.range length).powersetCard count :=
    Finset.mem_powersetCard.mpr ⟨Finset.range_subset_range.mpr hcount, Finset.card_range count⟩
  refine ⟨(returning length count (Finset.range count)).ncard, fun family hfamily => ?_⟩
  rw [card_filter_sampled]
  exact Finset.sum_const_nat fun points hpoints => heven points (hfamily hpoints) _ hsome

/-- If sampling is unbiased, zero is left out as often as any other number. -/
theorem IsUnbiased.card_filter_zero_not_mem_mul (heven : IsUnbiased (m + 1) (c + 1)) (hcount : c ≤ m) :
    ((tapes (m + 1) m).filter fun draws => 0 ∉ sampled (m + 1) (c + 1) draws).card * (m + 1) =
      (m - c) * (m + 1) ^ m := by
  have hle : c + 1 ≤ m + 1 := Nat.succ_le_succ hcount
  obtain ⟨share, hshare⟩ := heven.exists_share hle
  have hall : (m + 1) ^ m = (m + 1).choose (c + 1) * share := by
    have hfamily := hshare _ (Finset.Subset.refl _)
    rwa [Finset.filter_true_of_mem fun draws _ => sampled_mem_powersetCard hle draws,
      Finset.card_powersetCard, Finset.card_range, card_tapes] at hfamily
  have hout : ((tapes (m + 1) m).filter fun draws => 0 ∉ sampled (m + 1) (c + 1) draws).card =
      m.choose (c + 1) * share := by
    have hfamily := hshare (((Finset.range (m + 1)).erase 0).powersetCard (c + 1))
      (Finset.powersetCard_mono (Finset.erase_subset 0 _))
    rw [Finset.card_powersetCard, Finset.card_erase_of_mem (Finset.mem_range.mpr (Nat.succ_pos m)),
      Finset.card_range] at hfamily
    refine (congrArg Finset.card (Finset.filter_congr fun draws _ => ?_)).trans hfamily
    have hsampled := Finset.mem_powersetCard.mp (sampled_mem_powersetCard hle draws)
    rw [Finset.mem_powersetCard, Finset.subset_erase]
    exact ⟨fun hzero => ⟨⟨hsampled.1, hzero⟩, hsampled.2⟩, fun h => h.1.2⟩
  calc ((tapes (m + 1) m).filter fun draws => 0 ∉ sampled (m + 1) (c + 1) draws).card * (m + 1)
      = m.choose (c + 1) * (m + 1) * share := by rw [hout, Nat.mul_right_comm]
    _ = (m + 1).choose (c + 1) * (m - c) * share := by
        rw [Nat.choose_mul_succ_eq, Nat.add_sub_add_right]
    _ = (m - c) * (m + 1) ^ m := by rw [hall, Nat.mul_assoc, Nat.mul_left_comm]

/-- No even choice of some, but not all, of at least three numbers is made: the length would divide
the number of sequences that leave out zero, and so a power of the number before it. -/
theorem not_isUnbiased (hlength : 2 < length) (hpos : 0 < count) (hlt : count < length) :
    ¬ IsUnbiased length count := by
  obtain ⟨m, rfl⟩ := Nat.exists_eq_add_of_le' (Nat.zero_lt_of_lt hlength)
  obtain ⟨c, rfl⟩ := Nat.exists_eq_add_of_le' hpos
  intro heven
  have hshare := heven.card_filter_zero_not_mem_mul (by omega)
  have hcount := card_filter_zero_not_mem (m := m) (c := c) (by omega)
  generalize ((tapes (m + 1) m).filter fun draws => 0 ∉ sampled (m + 1) (c + 1) draws).card = leftOut
    at hshare hcount
  have hdvd : m + 1 ∣ leftOut := by
    rw [← Nat.pow_pred_mul (show 0 < m by omega), ← Nat.mul_assoc] at hshare
    rw [Nat.eq_of_mul_eq_mul_right (Nat.succ_pos m) hshare]
    exact (dvd_pow_self _ (by omega)).mul_left _
  -- Adding this power to the number of sequences gives a multiple of the length as well.
  have hpower : m + 1 ∣ m ^ m := by
    rw [← Nat.dvd_add_right hdvd, hcount]
    exact (dvd_pow_self _ (by omega)).mul_right _
  have hcoprime : (m + 1).Coprime (m ^ m) :=
    (Nat.coprime_self_add_left.mpr (Nat.coprime_one_left m)).pow_right m
  have hone : m + 1 = 1 := hcoprime.eq_one_of_dvd hpower
  omega

/-- Where all numbers are sampled, there is only one set of points. -/
theorem isUnbiased_of_le (h : length ≤ count) : IsUnbiased length count := by
  have hall (points : Finset Nat) (hpoints : points ∈ (Finset.range length).powersetCard count) :
      points = Finset.range length := by
    obtain ⟨hsub, hcard⟩ := Finset.mem_powersetCard.mp hpoints
    exact Finset.eq_of_subset_of_card_le hsub (by rw [hcard, Finset.card_range]; exact h)
  intro points hpoints others hothers
  rw [hall points hpoints, hall others hothers]

/-- Either one of two numbers is returned by one draw. -/
theorem isUnbiased_two_one : IsUnbiased 2 1 := by
  have hone : ∀ points ∈ (Finset.range 2).powersetCard 1,
      ((tapes 2 1).filter fun draws => sampled 2 1 draws = points).card = 1 := by decide +kernel
  intro points hpoints others hothers
  rw [ncard_returning, ncard_returning, hone points hpoints, hone others hothers]

/-- Sampling is unbiased for up to two numbers, and where none or all of the numbers are sampled. In
all other cases there are two sets of points that are not returned by equally many draw
sequences. -/
theorem isUnbiased_iff (length count : Nat) :
    IsUnbiased length count ↔ length ≤ 2 ∨ count = 0 ∨ length ≤ count := by
  constructor
  · intro h
    by_contra hnot
    exact not_isUnbiased (by omega) (by omega) (by omega) h
  · intro h
    by_cases hall : length ≤ count
    · exact isUnbiased_of_le hall
    · rcases Nat.eq_zero_or_pos count with rfl | hpos
      · intro points hpoints others hothers
        rw [Finset.powersetCard_zero, Finset.mem_singleton] at hpoints hothers
        rw [hpoints, hothers]
      · obtain ⟨rfl, rfl⟩ : length = 2 ∧ count = 1 := by omega
        exact isUnbiased_two_one

/-- Of the nine draw sequences for one of three numbers, four return the first number, two the
second and three the third. -/
theorem not_isUnbiased_three_one :
    (returning 3 1 {0}).ncard = 4 ∧ (returning 3 1 {1}).ncard = 2 ∧ (returning 3 1 {2}).ncard = 3 ∧
      ¬ IsUnbiased 3 1 := by
  refine ⟨?_, ?_, ?_, not_isUnbiased (by decide) (by decide) (by decide)⟩
  all_goals
    rw [ncard_returning]
    decide +kernel

end Points

end ScheduleExplorer
