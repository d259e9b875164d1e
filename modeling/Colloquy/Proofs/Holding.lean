import Mathlib.Algebra.BigOperators.Group.Finset.Basic
import Mathlib.Algebra.Order.BigOperators.Group.Finset
import Mathlib.Data.Fintype.Card
import Mathlib.Data.Fintype.EquivFin
import Mathlib.Logic.Relation
import Mathlib.Order.WellFounded
import Colloquy.Machine.Holding

/-!
# Counting holders lets go of nothing that is held

While nodes are let go, the count of a node is the number of times that it is held from outside or
by nodes that are still there (`Holding.held`), and only nodes whose count is zero are let go.  So
what is held from outside remains, and so does what a remaining node holds
(`Holding.remaining_closed`).  A node whose count is zero waits in the queue until it is let go, so
nothing else remains (`Holding.held_of_remaining`).  Going back from holder to holder, one comes to
the outside or walks in a circle (`Holding.remaining_iff`).
-/

namespace Colloquy

namespace Holding

variable {g : Holding} {counts : Array Nat} {kept : Array Bool} {queue : List Nat} {k n : Nat}

/-- The nodes that have not been let go. -/
def there (g : Holding) (kept : Array Bool) : Finset Nat :=
  (Finset.range g.size).filter fun j => kept.getD j false = true

/-- How often a node is held, from outside or by nodes that are there. -/
def held (g : Holding) (kept : Array Bool) (n : Nat) : Nat :=
  g.outside.count n + ∑ j ∈ g.there kept, (g.holds j).count n

theorem mem_there : k ∈ g.there kept ↔ k < g.size ∧ kept.getD k false = true := by
  simp [there]

/-! ## Counting -/

theorem size_hold (counts : Array Nat) (n : Nat) : (hold counts n).size = counts.size := by
  simp [hold]

theorem getD_modify (f : Nat → Nat) (hk : k < counts.size) :
    (counts.modify n f).getD k 0 = if n = k then f (counts.getD k 0) else counts.getD k 0 := by
  simp only [Array.getD_eq_getD_getElem?, Array.getElem?_modify]
  split
  · simp [hk]
  · rfl

/-- One more for every time that a node is listed. -/
theorem foldl_hold (ns : List Nat) (counts : Array Nat) :
    (ns.foldl hold counts).size = counts.size
      ∧ ∀ k < counts.size, (ns.foldl hold counts).getD k 0 = counts.getD k 0 + ns.count k := by
  induction ns generalizing counts with
  | nil => simp
  | cons n ns ih =>
    obtain ⟨size, value⟩ := ih (hold counts n)
    rw [size_hold] at size value
    refine ⟨size, fun k hk => ?_⟩
    rw [List.foldl_cons, value k hk, hold, getD_modify _ hk, List.count_cons]
    by_cases hnk : n = k
    · simp only [hnk, if_true, beq_self_eq_true]
      omega
    · simp [hnk]

theorem counts_eq (g : Holding) :
    g.counts.size = g.size ∧ ∀ k < g.size, g.counts.getD k 0
      = g.outside.count k + ∑ j ∈ Finset.range g.size, (g.holds j).count k := by
  obtain ⟨size, value⟩ := foldl_hold g.outside (Array.replicate g.size 0)
  rw [Array.size_replicate] at size value
  -- after the holders below `n` have been counted
  have counted (n : Nat) (start : Array Nat) (hs : start.size = g.size) :
      (n.fold (fun n _ counts => (g.holds n).foldl hold counts) start).size = g.size
        ∧ ∀ k < g.size, (n.fold (fun n _ counts => (g.holds n).foldl hold counts) start).getD k 0
          = start.getD k 0 + ∑ j ∈ Finset.range n, (g.holds j).count k := by
    induction n with
    | zero => exact ⟨hs, fun k _ => by simp⟩
    | succ n ih =>
      rw [Nat.fold_succ]
      obtain ⟨size', value'⟩ := foldl_hold (g.holds n)
        (n.fold (fun n _ counts => (g.holds n).foldl hold counts) start)
      refine ⟨size'.trans ih.1, fun k hk => ?_⟩
      rw [value' k (ih.1 ▸ hk), ih.2 k hk, Finset.sum_range_succ, Nat.add_assoc]
  obtain ⟨total, sum⟩ := counted g.size _ size
  refine ⟨total, fun k hk => (sum k hk).trans ?_⟩
  rw [value k hk]
  simp [Array.getD_eq_getD_getElem?, hk]

/-! ## Letting go -/

/-- Counts are right, the queue holds nodes that nothing holds, all of those that are still there
among them, and nothing holds what has been let go. -/
structure Settling (g : Holding) (counts : Array Nat) (kept : Array Bool) (queue : List Nat) :
    Prop where
  size : counts.size = g.size
  size_kept : kept.size = g.size
  exact : ∀ n < g.size, counts.getD n 0 = g.held kept n
  waiting : ∀ n < g.size, kept.getD n false = true → counts.getD n 0 = 0 → n ∈ queue
  queue : ∀ n ∈ queue, counts.getD n 0 = 0
  gone : ∀ n < g.size, kept.getD n false = false → g.held kept n = 0

theorem getD_lower (counts : Array Nat) (n k : Nat) : (counts.modify n (· - 1)).getD k 0
    = counts.getD k 0 - if n = k then 1 else 0 := by
  by_cases hk : k < counts.size
  · rw [getD_modify _ hk]
    split <;> rfl
  · simp [Array.getD_eq_getD_getElem?, hk]

/-- A node whose last holder goes is put into the queue. -/
theorem mem_foldl_drop (ns : List Nat) {counts : Array Nat} {queue : List Nat}
    (waiting : counts.getD k 0 = 0 → k ∈ queue)
    (zero : (ns.foldl drop (counts, queue)).1.getD k 0 = 0) :
    k ∈ (ns.foldl drop (counts, queue)).2 := by
  induction ns generalizing counts queue with
  | nil => exact waiting zero
  | cons n ns ih =>
    rw [List.foldl_cons] at zero ⊢
    by_cases hone : counts.getD n 0 = 1
    · rw [drop, if_pos hone] at zero ⊢
      refine ih (fun lowered => ?_) zero
      rw [getD_lower] at lowered
      by_cases hnk : n = k
      · exact hnk ▸ List.mem_cons_self
      · rw [if_neg hnk] at lowered
        exact List.mem_cons_of_mem n (waiting lowered)
    · rw [drop, if_neg hone] at zero ⊢
      refine ih (fun lowered => waiting ?_) zero
      rw [getD_lower] at lowered
      split at lowered
      · subst k
        omega
      · exact lowered

/-- One less for every time that a node is listed; the queue gets nodes whose count is now zero. -/
theorem foldl_drop (ns : List Nat) (counts : Array Nat) (queue : List Nat)
    (hq : ∀ n ∈ queue, counts.getD n 0 = 0) :
    (ns.foldl drop (counts, queue)).1.size = counts.size
      ∧ (∀ k, (ns.foldl drop (counts, queue)).1.getD k 0 = counts.getD k 0 - ns.count k)
      ∧ ∀ n ∈ (ns.foldl drop (counts, queue)).2,
        (ns.foldl drop (counts, queue)).1.getD n 0 = 0 := by
  induction ns generalizing counts queue with
  | nil => exact ⟨rfl, fun k => by simp, hq⟩
  | cons n ns ih =>
    have less := getD_lower counts n
    have zero : ∀ k ∈ queue, (counts.modify n (· - 1)).getD k 0 = 0 := fun k hk => by
      rw [less, hq k hk, Nat.zero_sub]
    have next (queue' : List Nat)
        (hd : drop (counts, queue) n = (counts.modify n (· - 1), queue'))
        (hq' : ∀ k ∈ queue', (counts.modify n (· - 1)).getD k 0 = 0) := by
      obtain ⟨size, value, rest⟩ := ih (counts.modify n (· - 1)) queue' hq'
      refine (show ((n :: ns).foldl drop (counts, queue)).1.size = counts.size
        ∧ (∀ k, ((n :: ns).foldl drop (counts, queue)).1.getD k 0
            = counts.getD k 0 - (n :: ns).count k)
        ∧ ∀ k ∈ ((n :: ns).foldl drop (counts, queue)).2,
            ((n :: ns).foldl drop (counts, queue)).1.getD k 0 = 0 from ?_)
      rw [List.foldl_cons, hd]
      refine ⟨by simpa using size, fun k => ?_, rest⟩
      rw [value k, less, List.count_cons, Nat.sub_sub, Nat.add_comm]
      simp
    by_cases hone : counts.getD n 0 = 1
    · refine next (n :: queue) (by simp only [drop, hone, if_true])
        (List.forall_mem_cons.2 ⟨?_, zero⟩)
      rw [less, hone]
      simp
    · exact next queue (by simp only [drop, hone, if_false]) zero

/-- What a node that is let go held is held that much less. -/
theorem held_set (hn : n ∈ g.there kept) (hlt : n < kept.size) (k : Nat) :
    g.held (kept.set n false) k + (g.holds n).count k = g.held kept k := by
  have gone : g.there (kept.set n false) = (g.there kept).erase n := by
    ext j
    simp only [mem_there, Finset.mem_erase, Array.getD_eq_getD_getElem?, Array.getElem?_set]
    by_cases hj : n = j
    · simp [hj]
    · simp [hj, Ne.symm hj]
  rw [held, held, gone, Nat.add_assoc, Finset.sum_erase_add _ _ hn]

/-- **Letting go of a node** that waits and is still there. -/
theorem Settling.letGo {rest : List Nat} (h : g.Settling counts kept (n :: rest))
    (hlt : n < kept.size) (here : kept[n] = true) :
    g.Settling ((g.holds n).foldl drop (counts, rest)).1 (kept.set n false)
      ((g.holds n).foldl drop (counts, rest)).2 := by
  have hsize : n < g.size := h.size_kept ▸ hlt
  have hthere : n ∈ g.there kept :=
    mem_there.2 ⟨hsize, by simp [Array.getD_eq_getD_getElem?, hlt, here]⟩
  obtain ⟨size, value, queued⟩ := foldl_drop (g.holds n) counts rest
    fun k hk => h.queue k (List.mem_cons_of_mem n hk)
  have unheld : g.held kept n = 0 := (h.exact n hsize).symm.trans (h.queue n List.mem_cons_self)
  refine ⟨size.trans h.size, by simpa using h.size_kept, fun k hk => ?_,
    fun k hk there zero => ?_, queued, fun k hk hgone => ?_⟩
  · have := held_set hthere hlt k
    have := h.exact k hk
    have := value k
    omega
  · have apart : k ≠ n := by
      rintro rfl
      simp [Array.getD_eq_getD_getElem?, hlt] at there
    have before : kept.getD k false = true := by
      simpa [Array.getD_eq_getD_getElem?, Array.getElem?_set, apart.symm] using there
    exact mem_foldl_drop (g.holds n)
      (fun none => (List.mem_cons.1 (h.waiting k hk before none)).resolve_left apart) zero
  · have less := held_set hthere hlt k
    by_cases hkn : n = k
    · subst hkn
      omega
    · have : kept.getD k false = false := by
        simpa [Array.getD_eq_getD_getElem?, Array.getElem?_set, hkn] using hgone
      have := h.gone k hk this
      omega

/-- A node that waits but is not there any more is passed by. -/
theorem Settling.pass {rest : List Nat} (h : g.Settling counts kept (n :: rest))
    (gone : kept.getD n false ≠ true) : g.Settling counts kept rest where
  size := h.size
  size_kept := h.size_kept
  exact := h.exact
  waiting k hk there zero := by
    refine (List.mem_cons.1 (h.waiting k hk there zero)).resolve_left ?_
    rintro rfl
    exact gone there
  queue k hk := h.queue k (List.mem_cons_of_mem n hk)
  gone := h.gone

theorem settle_spec (h : g.Settling counts kept queue) :
    (g.settle counts kept queue).size = g.size
      ∧ (∀ n < g.size, (g.settle counts kept queue).getD n false = false →
        g.held (g.settle counts kept queue) n = 0)
      ∧ ∀ n < g.size, (g.settle counts kept queue).getD n false = true →
        0 < g.held (g.settle counts kept queue) n := by
  fun_induction settle g counts kept queue with
  | case1 counts kept =>
    refine ⟨h.size_kept, h.gone, fun n hn there => Nat.pos_of_ne_zero fun zero => ?_⟩
    exact absurd (h.waiting n hn there ((h.exact n hn).trans zero)) List.not_mem_nil
  | case2 counts kept n rest hlt here counts' queue' hdrop ih =>
    have next := h.letGo hlt here
    rw [show (g.holds n).foldl drop (counts, rest) = (counts', queue') from
      List.foldl_attach.symm.trans hdrop] at next ⊢
    exact ih next
  | case3 counts kept n rest hlt gone ih =>
    exact ih (h.pass (by simpa [Array.getD_eq_getD_getElem?, hlt] using gone))
  | case4 counts kept n rest hlt ih =>
    exact ih (h.pass (by simp [Array.getD_eq_getD_getElem?, hlt]))

theorem settling_start (g : Holding) :
    g.Settling g.counts (Array.replicate g.size true)
      ((List.range g.size).filter fun n => g.counts.getD n 0 = 0) := by
  have all : g.there (Array.replicate g.size true) = Finset.range g.size := by
    ext j
    simp only [mem_there, Finset.mem_range, Array.getD_eq_getD_getElem?, Array.getElem?_replicate]
    constructor
    · exact fun h => h.1
    · exact fun h => ⟨h, by simp [h]⟩
  refine ⟨?_, by simp, fun n hn => ?_, fun n hn _ zero => ?_, fun n hn => ?_,
    fun n hn hgone => ?_⟩
  · exact g.counts_eq.1
  · rw [g.counts_eq.2 n hn, held, all]
  · exact List.mem_filter.2 ⟨List.mem_range.2 hn, by simpa using zero⟩
  · simpa using (List.mem_filter.1 hn).2
  · simp [Array.getD_eq_getD_getElem?, hn] at hgone

theorem size_remaining (g : Holding) : g.remaining.size = g.size :=
  (settle_spec g.settling_start).1

/-- **What is held remains.** -/
theorem remaining_closed (g : Holding) :
    (∀ n ∈ g.outside, n < g.size → g.remaining.getD n false = true)
      ∧ ∀ j < g.size, g.remaining.getD j false = true →
        ∀ n ∈ g.holds j, n < g.size → g.remaining.getD n false = true := by
  obtain ⟨-, gone, -⟩ := settle_spec g.settling_start
  have gone : ∀ n < g.size, g.remaining.getD n false = false → g.held g.remaining n = 0 := gone
  refine ⟨fun n hn hlt => ?_, fun j hj hkept n hn hlt => ?_⟩
  · by_contra hfalse
    have := gone n hlt (Bool.eq_false_iff.2 hfalse)
    have pos := List.count_pos_iff.2 hn
    rw [held] at this
    omega
  · by_contra hfalse
    have := gone n hlt (Bool.eq_false_iff.2 hfalse)
    have le := Finset.single_le_sum (f := fun j => (g.holds j).count n) (fun _ _ => Nat.zero_le _)
      (mem_there.2 ⟨hj, hkept⟩)
    have pos := List.count_pos_iff.2 hn
    rw [held] at this
    omega

/-- **What remains is held**, from outside or by a node that remains. -/
theorem held_of_remaining (g : Holding) (hn : n < g.size) (kept : g.remaining.getD n false = true) :
    n ∈ g.outside ∨ ∃ j < g.size, g.remaining.getD j false = true ∧ n ∈ g.holds j := by
  have pos : 0 < g.held g.remaining n := (settle_spec g.settling_start).2.2 n hn kept
  rcases Nat.eq_zero_or_pos (g.outside.count n) with zero | held
  · rw [held, zero, Nat.zero_add] at pos
    obtain ⟨j, there, count⟩ := Finset.exists_ne_zero_of_sum_ne_zero (Nat.ne_of_gt pos)
    obtain ⟨hj, remains⟩ := mem_there.1 there
    exact .inr ⟨j, hj, remains, List.count_pos_iff.1 (Nat.pos_of_ne_zero count)⟩
  · exact .inl (List.count_pos_iff.1 held)

/-! ## Circles -/

/-- Nodes each of which is held from outside or by another of them are not let go. -/
theorem settle_supported {S : Nat → Prop}
    (supported : ∀ n, S n → n ∈ g.outside ∨ ∃ j, S j ∧ j < g.size ∧ n ∈ g.holds j)
    (h : g.Settling counts kept queue) (there : ∀ n, S n → n < g.size → kept.getD n false = true)
    (hn : S n) (hlt : n < g.size) : (g.settle counts kept queue).getD n false = true := by
  fun_induction settle g counts kept queue with
  | case1 counts kept => exact there n hn hlt
  | case2 counts kept k rest hk here counts' queue' hdrop ih =>
    have next := h.letGo hk here
    rw [show (g.holds k).foldl drop (counts, rest) = (counts', queue') from
      List.foldl_attach.symm.trans hdrop] at next ⊢
    refine ih next fun i hi hsize => ?_
    -- a node that is let go is held by nothing that is there
    have away : k ≠ i := by
      rintro rfl
      have zero : g.held kept k = 0 :=
        (h.exact k hsize).symm.trans (h.queue k List.mem_cons_self)
      rw [held, Nat.add_eq_zero_iff, Finset.sum_eq_zero_iff] at zero
      rcases supported k hi with outside | ⟨j, hj, hjsize, holds⟩
      · exact absurd zero.1 (Nat.ne_of_gt (List.count_pos_iff.2 outside))
      · exact absurd (zero.2 j (mem_there.2 ⟨hjsize, there j hj hjsize⟩))
          (Nat.ne_of_gt (List.count_pos_iff.2 holds))
    simpa [Array.getD_eq_getD_getElem?, Array.getElem?_set, away] using there i hi hsize
  | case3 counts kept k rest hk gone ih =>
    exact ih (h.pass (by simpa [Array.getD_eq_getD_getElem?, hk] using gone)) there
  | case4 counts kept k rest hk ih =>
    exact ih (h.pass (by simp [Array.getD_eq_getD_getElem?, hk])) there

/-- The first node holds the second. -/
def Leads (g : Holding) (j n : Nat) : Prop := j < g.size ∧ n ∈ g.holds j

/-- Nodes each of which is held from outside or by another of them remain. -/
theorem remaining_of_supported {S : Nat → Prop}
    (supported : ∀ n, S n → n ∈ g.outside ∨ ∃ j, S j ∧ j < g.size ∧ n ∈ g.holds j) (hn : S n)
    (hlt : n < g.size) : g.remaining.getD n false = true :=
  settle_supported supported g.settling_start
    (fun k _ hk => by simp [Array.getD_eq_getD_getElem?, hk]) hn hlt

/-- The node is held from outside, if only through other nodes. -/
def FromOutside (g : Holding) (n : Nat) : Prop :=
  ∃ o ∈ g.outside, Relation.ReflTransGen g.Leads o n

/-- The node is on a circle, or held from one through other nodes. -/
def FromCircle (g : Holding) (n : Nat) : Prop :=
  ∃ k, Relation.TransGen g.Leads k k ∧ Relation.ReflTransGen g.Leads k n

/-- Going back from holder to holder, one comes to the outside or walks in a circle. -/
theorem from_of_remaining (g : Holding) (hn : n < g.size) (kept : g.remaining.getD n false = true) :
    g.FromOutside n ∨ g.FromCircle n := by
  by_contra hnot
  rw [not_or] at hnot
  obtain ⟨hout, hcircle⟩ := hnot
  let Lost := { k : Fin g.size // ¬ g.FromCircle k }
  have acyclic : Std.Irrefl (Relation.TransGen fun j k : Lost => g.Leads j.1 k.1) := by
    refine ⟨fun k circle => k.2 ⟨k.1, ?_, .refl⟩⟩
    exact circle.lift (fun k : Lost => (k.1 : Nat)) fun _ _ => id
  have finite : Finite Lost := Subtype.finite
  have wf : WellFounded (Relation.TransGen fun j k : Lost => g.Leads j.1 k.1) :=
    Finite.wellFounded_of_trans_of_irrefl _
  have all (k : Lost) : g.remaining.getD k.1 false = true → g.FromOutside k.1 := by
    induction k using wf.induction with
    | _ k ih =>
      intro kept
      rcases g.held_of_remaining k.1.2 kept with outside | ⟨j, hj, kept', holds⟩
      · exact ⟨k.1, outside, .refl⟩
      · have lost : ¬ g.FromCircle j := by
          rintro ⟨i, circle, path⟩
          exact k.2 ⟨i, circle, path.tail ⟨hj, holds⟩⟩
        obtain ⟨o, ho, path⟩ := ih ⟨⟨j, hj⟩, lost⟩ (.single ⟨hj, holds⟩) kept'
        exact ⟨o, ho, path.tail ⟨hj, holds⟩⟩
  exact hout (all ⟨⟨n, hn⟩, hcircle⟩ kept)

/-- **What remains** is what is held from outside or from a circle. -/
theorem remaining_iff (g : Holding) (hn : n < g.size) :
    g.remaining.getD n false = true ↔ g.FromOutside n ∨ g.FromCircle n := by
  refine ⟨g.from_of_remaining hn, fun h => ?_⟩
  refine remaining_of_supported (S := fun n => g.FromOutside n ∨ g.FromCircle n) (fun k hk => ?_)
    h hn
  rcases hk with ⟨o, ho, path⟩ | ⟨i, circle, path⟩
  · rcases path.cases_tail with rfl | ⟨j, path, holds⟩
    · exact .inl ho
    · exact .inr ⟨j, .inl ⟨o, ho, path⟩, holds⟩
  · obtain ⟨j, path', holds⟩ := Relation.TransGen.tail'_iff.1 (circle.trans_left path)
    exact .inr ⟨j, .inr ⟨i, circle, path'⟩, holds⟩

end Holding

end Colloquy
