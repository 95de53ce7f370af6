import ScheduleExplorer.Random.ChaCha

/-!
# Sources that run alike

Two sources run alike if no sequence of draws and new seeds tells them apart. They are of one kind if
every seed makes them run alike, whatever has been drawn from either of them before. All ChaCha streams
are of one kind.
-/

namespace ScheduleExplorer

namespace RandomSource

variable {γ : Type} [RandomSource γ]

/-- A call of a source. -/
inductive Call where
  | bounded (bound : Nat)
  | double
  | reseed (seed : UInt64)

/-- What a call draws, and the source after it. -/
def perform (source : γ) : Call → Option (Nat ⊕ Float) × γ
  | .bounded bound => let (n, source) := nextBounded bound source; (some (.inl n), source)
  | .double => let (x, source) := nextDouble source; (some (.inr x), source)
  | .reseed seed => (none, reseed seed source)

/-- What a sequence of calls draws. -/
def draws (source : γ) : List Call → List (Option (Nat ⊕ Float))
  | [] => []
  | call :: rest => (perform source call).1 :: draws (perform source call).2 rest

/-- No sequence of calls tells two sources apart. -/
def RunsAlike (source other : γ) : Prop :=
  ∀ calls, draws source calls = draws other calls

/-- Every seed makes two sources run alike. -/
def OfOneKind (source other : γ) : Prop :=
  ∀ seed, RunsAlike (reseed seed source) (reseed seed other)

variable {source other : γ}

/-- A source runs like itself. -/
theorem RunsAlike.refl (source : γ) : RunsAlike source source :=
  fun _ => rfl

/-- Sources that run alike give the same draw, and run alike after it. -/
theorem RunsAlike.perform (h : RunsAlike source other) (call : Call) :
    (RandomSource.perform source call).1 = (RandomSource.perform other call).1 ∧
      RunsAlike (RandomSource.perform source call).2 (RandomSource.perform other call).2 :=
  ⟨(List.cons.inj (h [call])).1, fun rest => (List.cons.inj (h (call :: rest))).2⟩

/-- Sources that run alike draw the same double. -/
theorem RunsAlike.nextDouble (h : RunsAlike source other) :
    (RandomSource.nextDouble source).1 = (RandomSource.nextDouble other).1 ∧
      RunsAlike (RandomSource.nextDouble source).2 (RandomSource.nextDouble other).2 := by
  obtain ⟨hdraw, hrest⟩ := h.perform .double
  exact ⟨Sum.inr.inj (Option.some.inj hdraw), hrest⟩

/-- Sources that run alike are of one kind. -/
theorem RunsAlike.ofOneKind (h : RunsAlike source other) : OfOneKind source other :=
  fun seed => (h.perform (.reseed seed)).2

end RandomSource

open RandomSource

/-- A seed says everything about a ChaCha stream. -/
theorem ChaChaSource.ofOneKind (source other : ChaChaSource) : OfOneKind source other :=
  fun _ => .refl _

end ScheduleExplorer
