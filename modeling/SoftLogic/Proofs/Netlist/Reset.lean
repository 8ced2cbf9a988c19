import Mathlib.Logic.Function.Iterate
import SoftLogic.Netlist.Display
import SoftLogic.Proofs.Netlist.Reachability

/-!
# Resets of any netlist

A reset of a node ends, whatever the wiring: consumers may form cycles and may be listed more than once.  It leaves the
nodes downstream as they were before anything was computed, but for the values that inputs hold, and it does not touch
the others.

What a reset from a list of nodes leaves depends on which nodes are in the list, not on their order or number.  So a
second reset changes nothing, and resets commute.
-/

namespace SoftLogic

variable {R : Type} [Scalar R] {net : Netlist} {s : Signals R}

/-- Carrying out a sweep is a number of rounds. -/
theorem Sweep.exists_rounds (net : Netlist) (w : Sweep R) : ∃ k, (Sweep.step net)^[k] w = w.run net := by
  fun_induction Sweep.run net w with
  | case1 w _ => exact ⟨0, rfl⟩
  | case2 w _ ih =>
    obtain ⟨k, hk⟩ := ih
    exact ⟨k + 1, (Function.iterate_succ_apply _ k w).trans hk⟩

namespace Netlist

/-- Resets from the same nodes leave the same signals, whatever the order of the nodes and how often they are listed. -/
theorem reset_congr (hs : s.cells.size = net.size) {sources sources' : List Ref}
    (h : ∀ p, p ∈ sources ↔ p ∈ sources') : net.reset sources s = net.reset sources' s := by
  classical
  refine Signals.ext_cell (by rw [size_reset, size_reset]) fun q hq => ?_
  rw [size_reset, hs] at hq
  have hfeeds : (∃ p ∈ sources, net.Feeds p q) ↔ ∃ p ∈ sources', net.Feeds p q :=
    exists_congr fun p => and_congr_left fun _ => h p
  rw [cell_reset hs _ hq, cell_reset hs _ hq]
  exact if_congr hfeeds rfl rfl

theorem reset_append (net : Netlist) (sources sources' : List Ref) (s : Signals R) :
    net.reset (sources ++ sources') s = net.reset sources' (net.reset sources s) := List.foldl_append

/-- One reset after another is the same in either order. -/
theorem reset_comm (hs : s.cells.size = net.size) (sources sources' : List Ref) :
    net.reset sources (net.reset sources' s) = net.reset sources' (net.reset sources s) := by
  rw [← reset_append, ← reset_append]
  exact reset_congr hs fun p => by rw [List.mem_append, List.mem_append, or_comm]

/-- A second reset of a node changes nothing. -/
theorem resetNode_resetNode (hs : s.cells.size = net.size) (r : Ref) :
    net.resetNode r (net.resetNode r s) = net.resetNode r s := by
  have htwice : net.reset [r, r] s = net.reset [r] s := reset_congr hs fun p => by simp
  exact htwice

theorem output_of_reset_eq {s' : Signals R} {q : Ref} (h : s'.cell q = (s.cell q).reset (net.gate q)) :
    net.output s' q = none := by
  rw [output, h, Cell.reset]
  cases (net.gate q).isInput <;> rfl

/-- The reset of a node in any netlist: it comes to its end after some number of rounds.  A node downstream has then no
output, its baseline gradient and nothing pushed; any other node is unchanged, and an input holds the value that it
held.  A second reset changes nothing, and resets from lists of nodes can be done in any order. -/
theorem resetNode_iff_feeds (net : Netlist) (s : Signals R) (hs : s.cells.size = net.size) :
    (∀ r, ∃ k, ((Sweep.step net)^[k] (.start net r s)).work = [] ∧
      ((Sweep.step net)^[k] (.start net r s)).signals = net.resetNode r s) ∧
    (∀ r, ∀ q < net.size, net.Feeds r q → net.output (net.resetNode r s) q = none ∧
      ((net.resetNode r s).cell q).gradient = (net.gate q).baseline ∧
      ((net.resetNode r s).cell q).pushed = false) ∧
    (∀ r, ∀ q < net.size, ¬net.Feeds r q → (net.resetNode r s).cell q = s.cell q) ∧
    (∀ r, ∀ q < net.size, (net.gate q).isInput = true →
      ((net.resetNode r s).cell q).signal = (s.cell q).signal) ∧
    (∀ r, net.resetNode r (net.resetNode r s) = net.resetNode r s) ∧
    (∀ sources sources' : List Ref, (∀ p, p ∈ sources ↔ p ∈ sources') →
      net.reset sources s = net.reset sources' s) ∧
    ∀ sources sources' : List Ref,
      net.reset sources (net.reset sources' s) = net.reset sources' (net.reset sources s) := by
  refine ⟨fun r => ?_, fun r q hq hfeeds => ?_, fun r q hq hfeeds => ?_, fun r q hq hinput => ?_,
    resetNode_resetNode hs, fun _ _ => reset_congr hs, reset_comm hs⟩
  · obtain ⟨k, hk⟩ := Sweep.exists_rounds net (.start net r s)
    exact ⟨k, by rw [hk, Sweep.work_run], by rw [hk, resetNode]⟩
  · have hcell := cell_resetNode hs r hq
    rw [if_pos hfeeds] at hcell
    exact ⟨output_of_reset_eq hcell, by rw [hcell, Cell.reset], by rw [hcell, Cell.reset]⟩
  · rw [cell_resetNode hs r hq, if_neg hfeeds]
  · rw [cell_resetNode hs r hq]
    split
    · rw [Cell.reset, if_pos hinput]
    · rfl

/-- A negation that feeds the sigmoid it reads from: a cycle of two nodes, one of which feeds the other twice.  A reset
of the sigmoid reaches both, neither the input nor a negation apart. -/
theorem resetNode_cycle :
    ∃ net : Netlist, ∃ s : Signals Float,
      (do
        let net ← Netlist.empty.add 0 .input
        let net ← net.add 1 (.sigmoid 0)
        let net ← net.add 2 (.not none)
        let net ← net.add 3 (.not none)
        let net ← net.addOperand 2 1
        let net ← net.connect 2 1
        net.connect 1 2) = .ok net ∧
      s = ⟨#[⟨some 2, 0.5, false⟩, ⟨some 0.25, 0.5, true⟩, ⟨some 0.75, 0.5, true⟩, ⟨none, 0.5, false⟩]⟩ ∧
      s.cells.size = net.size ∧ net.consumers 1 = [2, 2] ∧ net.consumers 2 = [1] ∧
      (∃ k, ((Sweep.step net)^[k] (.start net 1 s)).work = [] ∧
        ((Sweep.step net)^[k] (.start net 1 s)).signals = net.resetNode 1 s) ∧
      ((net.resetNode 1 s).cell 2).pushed = false ∧
      (net.resetNode 1 s).cell 0 = s.cell 0 ∧ (net.resetNode 1 s).cell 3 = s.cell 3 := by
  have hnet : (do
      let net ← Netlist.empty.add 0 .input
      let net ← net.add 1 (.sigmoid 0)
      let net ← net.add 2 (.not none)
      let net ← net.add 3 (.not none)
      let net ← net.addOperand 2 1
      let net ← net.connect 2 1
      net.connect 1 2) =
      .ok ⟨#[⟨0, .input, [1]⟩, ⟨1, .sigmoid 0, [2, 2]⟩, ⟨2, .not (some 1), [1]⟩, ⟨3, .not none, []⟩]⟩ := by
    decide
  refine ⟨_, _, hnet, rfl, rfl, rfl, rfl, ?_⟩
  obtain ⟨hrounds, hreset, hkeeps, -⟩ := resetNode_iff_feeds
    ⟨#[⟨0, .input, [1]⟩, ⟨1, .sigmoid 0, [2, 2]⟩, ⟨2, .not (some 1), [1]⟩, ⟨3, .not none, []⟩]⟩
    (⟨#[⟨some 2, 0.5, false⟩, ⟨some 0.25, 0.5, true⟩, ⟨some 0.75, 0.5, true⟩, ⟨none, 0.5, false⟩]⟩ : Signals Float) rfl
  -- what lies downstream of the sigmoid is the sigmoid and the negation
  have hfeeds : ∀ q, Feeds
      ⟨#[⟨0, .input, [1]⟩, ⟨1, .sigmoid 0, [2, 2]⟩, ⟨2, .not (some 1), [1]⟩, ⟨3, .not none, []⟩]⟩ 1 q →
      q = 1 ∨ q = 2 := by
    intro q hq
    induction hq with
    | refl => exact .inl rfl
    | tail _ hb ih =>
      rcases ih with rfl | rfl
      · exact .inr (by simpa [consumers, node] using hb)
      · exact .inl (by simpa [consumers, node] using hb)
  refine ⟨hrounds 1, (hreset 1 2 (by decide) (.single (by decide))).2.2, hkeeps 1 0 (by decide) fun h => ?_,
    hkeeps 1 3 (by decide) fun h => ?_⟩
  · simpa using hfeeds 0 h
  · simpa using hfeeds 3 h

end Netlist

end SoftLogic
