import Std.Data.ExtTreeSet

/-!
# Closures

The numbers that can be reached from a set along given arrows. What an entry
leads to, what leads back to the head of a loop, what a location reaches by
doing nothing: all of these are such closures, and they differ in the arrows
only.

A pass over the arrows adds the target of every arrow that starts in the set.
A pass that adds nothing shows that the set is closed. Any other pass adds at
least one target that was missing, so there are at most as many of those as
there are arrows, and that many passes are enough.

## Main definitions

* `spread`: One pass over the arrows.
* `saturate`: Passes until nothing is added.
* `closure`: The least closed set that contains a set.
-/

namespace ActorCheck

/-- An arrow from one number to another. -/
abbrev Arrow : Type := Nat × Nat

/-- One pass: add the target of every arrow whose source is in the set. -/
def spread (arrows : List Arrow) (s : Std.ExtTreeSet Nat) : Std.ExtTreeSet Nat :=
  arrows.foldl (fun s a => if a.1 ∈ s then s.insert a.2 else s) s

/-- Pass over the arrows until nothing is added, at most so many times. -/
def saturate (arrows : List Arrow) : Nat → Std.ExtTreeSet Nat → Std.ExtTreeSet Nat
  | 0, s => s
  | passes + 1, s =>
    let t := spread arrows s
    if t = s then s else saturate arrows passes t

/-- The least set that contains `s` and is closed under the arrows. -/
def closure (arrows : List Arrow) (s : Std.ExtTreeSet Nat) : Std.ExtTreeSet Nat :=
  saturate arrows arrows.length s

end ActorCheck
