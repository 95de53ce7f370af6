/-!
# Step bounds

A strategy counts the decisions of an iteration and has a bound on them; zero stands for no bound.
-/

namespace ScheduleExplorer

/-- Whether a number of steps has reached a bound. -/
def boundReached (steps maxSteps : Nat) : Bool :=
  0 < maxSteps && maxSteps ≤ steps

end ScheduleExplorer
