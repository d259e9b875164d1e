/-!
# What is still held

The nodes of a graph hold each other, and some are held from outside.  A node that nothing holds is
let go, with everything that only it held, and so on.  What remains is the largest set of nodes each
of which is held from outside or by a node of the set; nodes that hold each other in a circle
remain.

Main statement: letting go ends (`Holding.settle`), since no node is let go twice.
-/

namespace Colloquy

/-- A graph whose nodes are the numbers below `size`, with the nodes that are held from outside. -/
structure Holding where
  size : Nat
  /-- What a node holds, as often as it holds it. -/
  holds : Nat → List Nat
  /-- What is held from outside, as often as it is held. -/
  outside : List Nat

namespace Holding

/-- One holder more for a node. -/
def hold (counts : Array Nat) (n : Nat) : Array Nat := counts.modify n (· + 1)

/-- How often each node is held. -/
def counts (g : Holding) : Array Nat :=
  let start := g.outside.foldl hold (Array.replicate g.size 0)
  g.size.fold (fun n _ counts => (g.holds n).foldl hold counts) start

/-- One holder less for a node; if it was the last, the node is to be let go. -/
def drop : Array Nat × List Nat → Nat → Array Nat × List Nat
  | (counts, queue), n =>
    if counts.getD n 0 = 1 then (counts.modify n (· - 1), n :: queue)
    else (counts.modify n (· - 1), queue)

/-- Lets go of the nodes of a queue, which nothing holds any more.  `kept` says which nodes have
not been let go. -/
def settle (g : Holding) (counts : Array Nat) (kept : Array Bool) (queue : List Nat) : Array Bool :=
  match queue with
  | [] => kept
  | n :: rest =>
    if h : n < kept.size then
      if _here : kept[n] = true then
        let (counts, queue) := (g.holds n).foldl drop (counts, rest)
        settle g counts (kept.set n false) queue
      else settle g counts kept rest
    else settle g counts kept rest
termination_by (kept.count true, queue.length)
decreasing_by
  · apply Prod.Lex.left
    have hpos : 0 < kept.count true := Array.count_pos_iff.2 (_here ▸ Array.getElem_mem h)
    have hset : (kept.set n false).count true = kept.count true - 1 := by
      rw [Array.count_set, _here]
      rfl
    rw [hset]
    exact Nat.sub_lt hpos Nat.one_pos
  · simp [Prod.lex_def]
  · simp [Prod.lex_def]

/-- Which nodes remain when everything that nothing holds has been let go. -/
def remaining (g : Holding) : Array Bool :=
  let counts := g.counts
  let free := (List.range g.size).filter fun n => counts.getD n 0 = 0
  g.settle counts (Array.replicate g.size true) free

end Holding

end Colloquy
