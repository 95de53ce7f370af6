import Mathlib.Data.Finset.Card
import ScheduleExplorer.Dpor.OpSet

/-!
# Sets of operations as finite sets

A set of operations that has come about by any calls represents the finite set that the same
operations on finite sets give: its members, their order, the least one, their number, and whether
there is one, alone or in common with another set. The two sets of a union, a difference or a common
member come about in ways of their own, so that nothing is assumed about their numbers of words.
-/

namespace ScheduleExplorer

/-- A word has as many bits as it lists positions. -/
theorem Word.size_eq (word : UInt64) : size word = (positions word).length := by
  have hperm : ((List.range 64).filter word.toNat.testBit).Perm (positions word) := by
    refine (List.perm_ext_iff_of_nodup (List.nodup_range.filter _)
      ((pairwise_positions word).imp Nat.ne_of_lt)).mpr fun i => ?_
    rw [List.mem_filter, List.mem_range, mem_positions]
    exact ⟨And.right, fun hbit => ⟨lt_of_testBit hbit, hbit⟩⟩
  rw [size, List.countP_eq_length_filter, hperm.length_eq]

namespace OpSet

/-- The list of members ascends: within a word, and from each word to the later ones. -/
theorem pairwise_toList (set : OpSet) :
    set.toList.Pairwise fun id later => id.index < later.index := by
  have hindices : set.words.zipIdx.Pairwise fun entry later => entry.2 < later.2 := by
    have hrange : (set.words.zipIdx.map Prod.snd).Pairwise (· < ·) := by
      rw [List.zipIdx_map_snd]
      exact List.pairwise_lt_range'
    exact List.pairwise_map.mp hrange
  rw [toList, List.pairwise_flatMap]
  constructor
  · rintro ⟨word, index⟩ -
    rw [List.pairwise_map]
    refine (Word.pairwise_positions word).imp fun hlt => ?_
    simp only [operationAt]
    omega
  · refine hindices.imp fun hlt id hid later hlater => ?_
    obtain ⟨bit, hbit, rfl⟩ := List.mem_map.mp hid
    obtain ⟨bit', -, rfl⟩ := List.mem_map.mp hlater
    have hbound := Word.lt_of_testBit (Word.mem_positions.mp hbit)
    simp only [operationAt]
    omega

/-- No operation is listed twice. -/
theorem nodup_toList (set : OpSet) : set.toList.Nodup :=
  (pairwise_toList set).imp fun hlt heq => Nat.ne_of_lt hlt (congrArg OperationId.index heq)

/-- The number of members is the length of their list. -/
theorem size_eq (set : OpSet) : set.size = set.toList.length := by
  have hsizes : set.words.map Word.size =
      set.words.zipIdx.map fun entry => (Word.positions entry.1).length := by
    conv_lhs => rw [← List.zipIdx_map_fst 0 set.words, List.map_map]
    exact List.map_congr_left fun entry _ => Word.size_eq entry.1
  have hsum : set.size = (set.words.map Word.size).sum := by
    rw [size, List.sum_eq_foldr, List.foldr_map]
  rw [hsum, hsizes, toList, List.length_flatMap]
  simp only [List.length_map]

/-- The first member listed is below the others. -/
theorem first?_eq_some_iff {id : OperationId} {set : OpSet} :
    set.first? = some id ↔
      set.contains id = true ∧ ∀ other, set.contains other = true → id.index ≤ other.index := by
  have hpairwise := pairwise_toList set
  rw [first?_eq]
  simp only [← mem_toList]
  cases hlist : set.toList with
  | nil => simp
  | cons least rest =>
    rw [hlist, List.pairwise_cons] at hpairwise
    rw [List.head?_cons, Option.some.injEq]
    constructor
    · rintro rfl
      refine ⟨List.mem_cons_self, fun other hother => ?_⟩
      rcases List.mem_cons.mp hother with rfl | hrest
      · exact Nat.le_refl _
      · exact Nat.le_of_lt (hpairwise.1 other hrest)
    · rintro ⟨hid, hleast⟩
      rcases List.mem_cons.mp hid with rfl | hrest
      · rfl
      · have hlt := hpairwise.1 id hrest
        have hle := hleast least List.mem_cons_self
        omega

/-- What a set of operations says of its members, as a finite set. -/
structure Represents (set : OpSet) (members : Finset OperationId) : Prop where
  contains : ∀ id, set.contains id = true ↔ id ∈ members
  toList : ∀ id, id ∈ set.toList ↔ id ∈ members
  ascends : set.toList.Pairwise fun id later => id.index < later.index
  first : ∀ id, set.first? = some id ↔ id ∈ members ∧ ∀ other ∈ members, id.index ≤ other.index
  noFirst : set.first? = none ↔ members = ∅
  size : set.size = members.card
  isEmpty : set.isEmpty = true ↔ members = ∅

/-- Everything that a set says follows from what it contains. -/
theorem represents_of_contains {set : OpSet} {members : Finset OperationId}
    (h : ∀ id, set.contains id = true ↔ id ∈ members) : set.Represents members where
  contains := h
  toList id := mem_toList.trans (h id)
  ascends := pairwise_toList set
  first id := by simp only [first?_eq_some_iff, h]
  noFirst := by
    rw [first?_eq, List.head?_eq_none_iff, List.eq_nil_iff_forall_not_mem,
      Finset.eq_empty_iff_forall_notMem]
    simp only [mem_toList, h]
  size := by
    have hmembers : set.toList.toFinset = members := by
      ext id
      rw [List.mem_toFinset, mem_toList, h]
    rw [size_eq, ← hmembers, List.toFinset_card_of_nodup (nodup_toList set)]
  isEmpty := by
    rw [isEmpty_iff, Finset.eq_empty_iff_forall_notMem]
    simp only [← h, Bool.not_eq_true]

/-- Two sets that represent finite sets intersect as these do. -/
theorem Represents.intersects_iff {set other : OpSet} {members others : Finset OperationId}
    (h : set.Represents members) (hother : other.Represents others) :
    set.intersects other = true ↔ ¬Disjoint members others := by
  rw [OpSet.intersects_iff, Finset.not_disjoint_iff]
  simp only [h.contains, hother.contains]

/-- The calls by which a set came about, the last one first. The other set of a union or of a
difference came about by calls of its own. -/
inductive History where
  | new
  | insert (id : OperationId) (past : History)
  | erase (id : OperationId) (past : History)
  | union (past other : History)
  | difference (past other : History)
  | clear (past : History)

namespace History

/-- The set that the calls make. -/
def set : History → OpSet
  | new => {}
  | insert id past => past.set.insert id
  | erase id past => past.set.erase id
  | union past other => past.set.union other.set
  | difference past other => past.set.difference other.set
  | clear past => past.set.clear

/-- The finite set that the same operations on finite sets make. -/
def members : History → Finset OperationId
  | new => ∅
  | insert id past => Insert.insert id past.members
  | erase id past => past.members.erase id
  | union past other => past.members ∪ other.members
  | difference past other => past.members \ other.members
  | clear _ => ∅

/-- Each call changes the members as the operation on finite sets does. -/
theorem contains_set (history : History) (id : OperationId) :
    history.set.contains id = true ↔ id ∈ history.members := by
  induction history with
  | new => simp [set, members]
  | insert added past ih =>
    rw [set, members, contains_insert, Bool.or_eq_true, decide_eq_true_eq, ih, Finset.mem_insert,
      or_comm, eq_comm (a := id)]
  | erase removed past ih =>
    rw [set, members, contains_erase, Bool.and_eq_true, decide_eq_true_eq, ih, Finset.mem_erase,
      and_comm, ne_comm (a := id)]
  | union past other ih ihOther => simp [set, members, ih, ihOther]
  | difference past other ih ihOther => simp [set, members, ih, ← ihOther]
  | clear past ih => simp [set, members, OpSet.clear]

/-- By whatever calls two sets came about, each represents its finite set, and they intersect if
these are not disjoint. -/
theorem represents_members (history other : History) :
    history.set.Represents history.members ∧
      (history.set.intersects other.set = true ↔ ¬Disjoint history.members other.members) := by
  have hset := represents_of_contains history.contains_set
  have hother := represents_of_contains other.contains_set
  exact ⟨hset, hset.intersects_iff hother⟩

/-- A set of one word takes over the second word of another one. -/
example : (union (insert ⟨3⟩ new) (erase ⟨3⟩ (insert ⟨64⟩ (insert ⟨3⟩ new)))).set.toList =
    [⟨3⟩, ⟨64⟩] := by
  decide

end History

end OpSet

end ScheduleExplorer
