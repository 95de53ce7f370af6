import ScheduleExplorer.Config
import ScheduleExplorer.Proofs.Selections
import ScheduleExplorer.Random.ChaCha
import Mathlib.Data.List.Nodup
import Mathlib.Data.Set.Function
import Mathlib.Logic.Function.Iterate
import Mathlib.Order.Interval.Set.Defs

/-!
# Which parts of a strategy share their draws

Every part of a strategy that draws has a base seed, from which the seeds of all its iterations are
derived. A combination gives its own seed to its lead and derives another one for its rest; a
priority schedule that ends in a random walk does the same with its two parts. So the base seeds are
members of one chain of seeds, and two parts have the same base seed if they stand at the same place
of the chain.

That happens where a priority schedule with a random walk is the lead of a combination: the walk and
the rest of the combination both are one derivation away from the seed.
-/

namespace ScheduleExplorer

namespace Strategy

variable {γ : Type}

/-- The base seeds of the parts that draw, in the order in which the parts take over. -/
def baseSeeds : Strategy γ → List UInt64
  | random s => [s.baseSeed]
  | sticky s => [s.walk.baseSeed]
  | delayBounding s => [s.walk.baseSeed]
  | priority s => [s.walk.baseSeed]
  | depthFirst _ | replay _ => []
  | dpor s => (s.random.map ReversalMode.baseSeed).toList
  | qLearning s => [s.walk.baseSeed]
  | novelty s => [s.walk.baseSeed]
  | combo lead rest => lead.baseSeeds ++ rest.baseSeeds
  | liveness inner => inner.baseSeeds

end Strategy

namespace Selection

/-- How many times the seed is derived for each of the parts that draw. -/
def derivations : Selection → List Nat
  | depthFirst | dpor => []
  | fairPriority _ => [0, 1]
  | combo lead rest => lead.derivations ++ rest.derivations.map (· + 1)
  | _ => [0]

/-- The number of parts of a selection. -/
def size : Selection → Nat
  | fairPriority _ => 2
  | combo lead rest => lead.size + rest.size
  | _ => 1

/-- Whether the first part of a selection draws. -/
def drawsFirst : Selection → Bool
  | depthFirst | dpor => false
  | combo lead _ => lead.drawsFirst
  | _ => true

/-- Whether no priority schedule with a random walk is followed by a part that draws. -/
def KeepsApart : Selection → Prop
  | combo (fairPriority _) rest => rest.drawsFirst = false ∧ rest.KeepsApart
  | combo _ rest => rest.KeepsApart
  | _ => True

/-! ### Places in the chain of seeds -/

/-- A selection has at least one part. -/
theorem size_pos (s : Selection) : 0 < s.size := by
  induction s with
  | combo lead rest ihLead _ => exact Nat.add_pos_left ihLead _
  | fairPriority => exact Nat.two_pos
  | _ => exact Nat.one_pos

/-- The seed is derived fewer times than there are parts. -/
theorem lt_size_of_mem_derivations {s : Selection} {k : Nat} (h : k ∈ s.derivations) : k < s.size := by
  induction s generalizing k with
  | combo lead rest ihLead ihRest =>
    have hlead := lead.size_pos
    rw [derivations, List.mem_append, List.mem_map] at h
    rw [size]
    rcases h with hk | ⟨j, hj, rfl⟩
    · have hlt := ihLead hk
      omega
    · have hlt := ihRest hj
      omega
  | _ => simp_all [derivations, size] <;> omega

/-- Only the first part can have the seed itself. -/
theorem zero_mem_derivations {s : Selection} : 0 ∈ s.derivations ↔ s.drawsFirst = true := by
  induction s with
  | combo lead rest ihLead _ => simp [derivations, drawsFirst, ihLead]
  | _ => simp [derivations, drawsFirst]

/-- The parts of a selection with single leads stand at different places of the chain exactly if no
random walk after a priority schedule meets the part that follows. -/
theorem nodup_derivations_iff {s : Selection} (h : s.HasSingleLeads) :
    s.derivations.Nodup ↔ s.KeepsApart := by
  induction s with
  | combo lead rest _ ihRest =>
    have hrest : (rest.derivations.map (· + 1)).Nodup ↔ rest.KeepsApart := by
      rw [List.nodup_map_iff (fun a b h => by simpa using h), ihRest h.2]
    have hone : 1 ∈ rest.derivations.map (· + 1) ↔ rest.drawsFirst = true := by
      rw [← zero_mem_derivations]
      simp
    cases lead with
    | combo => cases h.1
    | fairPriority => simp [derivations, KeepsApart, hrest, hone, List.nodup_cons]
    | _ => simp [derivations, KeepsApart, hrest]
  | _ => simp [derivations, KeepsApart]

end Selection

namespace Config

variable {γ : Type} [RandomSource γ]

/-- The base seeds of a built strategy are members of the chain that starts with its seed. -/
theorem baseSeeds_build {source : UInt64 → γ} (hsource : ∀ seed, RandomSource.seed (source seed) = seed)
    (config : Config) (s : Selection) (seed : UInt64) :
    (config.build source s seed).baseSeeds = s.derivations.map fun k => restSeed^[k] seed := by
  induction s generalizing seed with
  | combo lead rest ihLead ihRest =>
    have hchain : (fun k => restSeed^[k] seed) ∘ (· + 1) = fun k => restSeed^[k] (restSeed seed) :=
      funext fun k => Function.iterate_succ_apply restSeed k seed
    rw [build, Strategy.baseSeeds, ihLead, ihRest, Selection.derivations, List.map_append,
      List.map_map, hchain]
  | depthFirst | dpor => rfl
  | fairPriority points =>
    have hwalks : (config.build source (.fairPriority points) seed).baseSeeds =
        [RandomSource.seed (source seed), RandomSource.seed (source (restSeed seed))] := rfl
    rw [hwalks, hsource, hsource, Selection.derivations]
    simp only [List.map_cons, List.map_nil, Function.iterate_zero_apply, Function.iterate_succ_apply]
  | _ => exact congrArg (fun seed => [seed]) (hsource seed)

/-- If the seeds of the chain are different, a strategy has a base seed twice exactly if two of its
parts stand at the same place of the chain. -/
theorem nodup_baseSeeds {source : UInt64 → γ}
    (hsource : ∀ seed, RandomSource.seed (source seed) = seed) (config : Config)
    (hchain : Set.InjOn (fun k => restSeed^[k] config.seed) (Set.Iio config.selection.size)) :
    (config.strategy source).baseSeeds.Nodup ↔ config.selection.derivations.Nodup := by
  rw [strategy, baseSeeds_build hsource]
  exact ⟨List.Nodup.of_map _, fun h => h.map_on fun k hk j hj heq =>
    hchain (Selection.lt_size_of_mem_derivations hk) (Selection.lt_size_of_mem_derivations hj) heq⟩

/-- A strategy that is selected by a text has no base seed twice, provided that the seeds of the chain
are different, exactly if no priority schedule with a random walk is followed by a part that
draws. -/
theorem nodup_baseSeeds_iff_keepsApart {text : String} {config : Config}
    (hparse : Selection.parse text = .ok config.selection) {source : UInt64 → γ}
    (hsource : ∀ seed, RandomSource.seed (source seed) = seed)
    (hchain : Set.InjOn (fun k => restSeed^[k] config.seed) (Set.Iio config.selection.size)) :
    (config.strategy source).baseSeeds.Nodup ↔ config.selection.KeepsApart := by
  have hleads := (Selection.hasSingleLeads_of_ofChars hparse).1
  rw [nodup_baseSeeds hsource config hchain, Selection.nodup_derivations_iff hleads]

/-- A priority schedule with a random walk, and then a random walk after a search. -/
def searchBetween : Config :=
  { seed := 3, selection := .combo (.fairPriority 2) (.combo .depthFirst .random) }

/-- The search between the two walks keeps their base seeds apart. -/
theorem nodup_baseSeeds_iff_keepsApart_searchBetween :
    Selection.parse "combo:fairpct:2+combo:dfs+random" = .ok searchBetween.selection ∧
      Set.InjOn (fun k => restSeed^[k] searchBetween.seed) (Set.Iio searchBetween.selection.size) ∧
      (searchBetween.strategy ChaChaSource.ofSeed).baseSeeds.Nodup := by
  have htext : searchBetween.selection.text = "combo:fairpct:2+combo:dfs+random" := by decide
  have hword : 2 < Nat.pow 2 64 := by decide
  have hparse : Selection.parse "combo:fairpct:2+combo:dfs+random" = .ok searchBetween.selection :=
    htext ▸ Selection.parse_text ⟨hword, trivial, trivial⟩ ⟨rfl, rfl, trivial⟩
  have hchain : ∀ i < 4, ∀ j < 4,
      restSeed^[i] searchBetween.seed = restSeed^[j] searchBetween.seed → i = j := by
    decide +kernel
  have hinj : Set.InjOn (fun k => restSeed^[k] searchBetween.seed)
      (Set.Iio searchBetween.selection.size) := fun i hi j hj heq => hchain i hi j hj heq
  exact ⟨hparse, hinj, (nodup_baseSeeds_iff_keepsApart hparse (fun _ => rfl) hinj).mpr
    ⟨rfl, trivial⟩⟩

/-- A priority schedule with a random walk, and then another random walk. -/
def walkAfterWalk : Config :=
  { seed := 3, selection := .combo (.fairPriority 2) .random }

/-- The two random walks have the same base seed, although the seeds of the chain are different. -/
theorem not_nodup_baseSeeds_walkAfterWalk :
    Selection.parse "combo:fairpct:2+random" = .ok walkAfterWalk.selection ∧
      Set.InjOn (fun k => restSeed^[k] walkAfterWalk.seed) (Set.Iio walkAfterWalk.selection.size) ∧
      (walkAfterWalk.strategy ChaChaSource.ofSeed).baseSeeds =
        [walkAfterWalk.seed, restSeed walkAfterWalk.seed, restSeed walkAfterWalk.seed] ∧
      ¬ (walkAfterWalk.strategy ChaChaSource.ofSeed).baseSeeds.Nodup := by
  have htext : walkAfterWalk.selection.text = "combo:fairpct:2+random" := by decide
  have hword : 2 < Nat.pow 2 64 := by decide
  have hparse : Selection.parse "combo:fairpct:2+random" = .ok walkAfterWalk.selection :=
    htext ▸ Selection.parse_text ⟨hword, trivial⟩ ⟨rfl, trivial⟩
  have hchain : ∀ i < 3, ∀ j < 3,
      restSeed^[i] walkAfterWalk.seed = restSeed^[j] walkAfterWalk.seed → i = j := by
    decide +kernel
  have hseeds : (walkAfterWalk.strategy ChaChaSource.ofSeed).baseSeeds =
      [walkAfterWalk.seed, restSeed walkAfterWalk.seed, restSeed walkAfterWalk.seed] := rfl
  refine ⟨hparse, fun i hi j hj heq => hchain i hi j hj heq, hseeds, ?_⟩
  rw [hseeds]
  simp

end Config

end ScheduleExplorer
