import SoftLogic.Netlist.Gradient
import SoftLogic.Proofs.Netlist.Reachability
import SoftLogic.Proofs.Netlist.Walk

/-!
# Pristine signals

After a reset from the inputs every node is as new, except that an input holds its value.  The reset reaches
every node but the negations that a rejected clause left without an operand; nothing reads these and they read
nothing, so no computation on the signals ever touches them.  `Signals.Fits` is the invariant that says so.
-/

namespace SoftLogic

open Effect

variable {R : Type} [Scalar R] {net : Netlist} {n : Nat} {s : Signals R}

/-- No node carries a signal, but for the inputs, or anything of a gradient. -/
structure Signals.Pristine (net : Netlist) (s : Signals R) : Prop where
  signal : ∀ r < net.size, (net.gate r).isInput = false → (s.cell r).signal = none
  gradient : ∀ r < net.size, (s.cell r).gradient = (net.gate r).baseline
  pushed : ∀ r < net.size, (s.cell r).pushed = false

/-- There is a cell for each node, and a negation without operand is untouched. -/
structure Signals.Fits (net : Netlist) (s : Signals R) : Prop where
  size : s.cells.size = net.size
  vacant : ∀ r < net.size, net.gate r = .not none → s.cell r = Cell.initial (net.gate r)

theorem Signals.size_extend (h : s.cells.size ≤ net.size) : (s.extend net).cells.size = net.size := by
  unfold Netlist.size at h ⊢
  simp only [extend, Array.size_append, Array.size_map, Array.size_extract, Netlist.size]
  omega

/-- A node that is new when the signals grow is untouched. -/
theorem Signals.cell_extend_of_le {r : Nat} (hr : s.cells.size ≤ r) (hlt : r < net.size) :
    (s.extend net).cell r = Cell.initial (net.gate r) := by
  unfold Netlist.size at hlt
  have hlt' : r - s.cells.size < (net.nodes.extract s.cells.size net.nodes.size).size := by
    rw [Array.size_extract]
    omega
  simp only [extend, cell, Array.getD_eq_getD_getElem?, Array.getElem?_append_right hr, Array.getElem?_map,
    Netlist.size, Array.getElem?_eq_getElem hlt', Array.getElem_extract]
  simp [Netlist.gate, Netlist.node, hlt, Nat.add_sub_cancel' hr]

/-! ### Vacant negations -/

namespace Netlist.Sound

/-- What is read is no vacant negation. -/
theorem operand_ne_vacant (h : net.Sound n) {r d : Nat} (hd : d ∈ net.operands r) :
    net.gate d ≠ .not none := by
  intro hvacant
  have hmem := h.mem_operands_iff.mp hd
  rw [h.consumers_of_isOpen (by rw [hvacant]; rfl)] at hmem
  cases hmem

/-- What reads something is no vacant negation. -/
theorem consumer_ne_vacant (h : net.Sound n) {r c : Nat} (hc : c ∈ net.consumers r) :
    net.gate c ≠ .not none := by
  intro hvacant
  have hmem := h.mem_operands_iff.mpr hc
  rw [operands, hvacant] at hmem
  cases hmem

/-- What stands for a formula lies downstream of an input. -/
theorem feeds_of_denotes (h : net.Sound n) {r : Nat} {f : Formula} (hd : net.Denotes n r f) :
    ∃ k < n, net.Feeds k r := by
  induction hd with
  | @var r k hk _ hgate =>
    have hmem : k ∈ net.operands r := by rw [operands, hgate]; exact List.mem_singleton_self k
    exact ⟨k, hk, .single (h.mem_operands_iff.mp hmem)⟩
  | @not r a _ hgate _ ih =>
    obtain ⟨k, hk, hfeeds⟩ := ih
    have hmem : a ∈ net.operands r := by rw [operands, hgate]; exact List.mem_singleton_self a
    exact ⟨k, hk, hfeeds.tail (h.mem_operands_iff.mp hmem)⟩
  | @binary r a b _ _ _ hgate _ _ ih _ =>
    obtain ⟨k, hk, hfeeds⟩ := ih
    have hmem : a ∈ net.operands r := by rw [operands, hgate]; exact List.mem_cons_self
    exact ⟨k, hk, hfeeds.tail (h.mem_operands_iff.mp hmem)⟩

/-- Every node but a vacant negation lies downstream of an input. -/
theorem feeds_of_ne_vacant (h : net.Sound n) {r : Nat} (hr : r < net.size)
    (hvacant : net.gate r ≠ .not none) : ∃ k < n, net.Feeds k r := by
  by_cases hrn : r < n
  · exact ⟨r, hrn, .refl⟩
  · cases h.stage_of_le (Nat.le_of_not_lt hrn) hr with
    | vacant hgate _ => exact absurd hgate hvacant
    | waiting hgate hd _ =>
      obtain ⟨k, hk, hfeeds⟩ := h.feeds_of_denotes hd
      refine ⟨k, hk, hfeeds.tail (h.mem_operands_iff.mp ?_)⟩
      rw [operands, hgate]
      exact List.mem_cons_self
    | finished hd => exact h.feeds_of_denotes hd
    | root hgate hd _ =>
      obtain ⟨k, hk, hfeeds⟩ := h.feeds_of_denotes hd
      refine ⟨k, hk, hfeeds.tail (h.mem_operands_iff.mp ?_)⟩
      rw [operands, hgate]
      exact List.mem_cons_self

end Netlist.Sound

/-! ### Resetting -/

/-- A reset from the inputs makes signals that fit pristine. -/
theorem Signals.Fits.pristine_reset (hfits : s.Fits net) (h : net.Sound n) :
    (net.reset (Circuit.inputsOf n) s).Pristine net := by
  have hcell : ∀ r < net.size, ((net.reset (Circuit.inputsOf n) s).cell r) =
      (s.cell r).reset (net.gate r) := by
    intro r hr
    rw [Netlist.cell_reset hfits.size _ hr]
    -- a vacant negation is as a reset leaves it, whether the reset reaches it or not
    by_cases hvacant : net.gate r = .not none
    · rw [hfits.vacant r hr hvacant, Cell.reset_initial, ite_self]
    · obtain ⟨k, hk, hfeeds⟩ := h.feeds_of_ne_vacant hr hvacant
      rw [if_pos ⟨k, List.mem_range.mpr hk, hfeeds⟩]
  constructor
  · intro r hr hinput
    rw [hcell r hr, Cell.reset, hinput]
    rfl
  · intro r hr
    rw [hcell r hr, Cell.reset]
  · intro r hr
    rw [hcell r hr, Cell.reset]

/-- A reset leaves the values that inputs hold. -/
theorem Signals.Fits.signal_reset (hfits : s.Fits net) (sources : List Ref) {r : Nat} (hr : r < net.size)
    (hinput : (net.gate r).isInput = true) :
    ((net.reset sources s).cell r).signal = (s.cell r).signal := by
  rw [Netlist.cell_reset hfits.size _ hr]
  split
  · rw [Cell.reset, if_pos hinput]
  · rfl

theorem Signals.Fits.reset (hfits : s.Fits net) (sources : List Ref) : (net.reset sources s).Fits net := by
  refine ⟨by rw [Netlist.size_reset, hfits.size], fun r hr hvacant => ?_⟩
  rw [Netlist.cell_reset hfits.size _ hr, hfits.vacant r hr hvacant, Cell.reset_initial, ite_self]

/-! ### Computing -/

theorem Signals.Fits.update (hfits : s.Fits net) {r : Nat} (hr : net.gate r ≠ .not none)
    (f : Cell R → Cell R) : (s.update r f).Fits net := by
  refine ⟨by rw [Signals.size_update, hfits.size], fun q hq hvacant => ?_⟩
  have hne : q ≠ r := by
    rintro rfl
    exact hr hvacant
  rw [Signals.cell_update_of_ne s f hne, hfits.vacant q hq hvacant]

namespace Netlist

theorem fits_store {r : Nat} (hr : net.gate r ≠ .not none) (x : R) :
    Keeps (Signals.Fits net) (SignalM.store r x) := fun _ hs => hs.update hr _

theorem keeps_known {I : Signals R → Prop} (r : Nat) : Keeps I (SignalM.known r) := by
  intro s hs
  rw [SignalM.known_apply]
  cases (s.cell r).signal <;> exact hs

/-- Computing the value of a node changes nothing. -/
theorem keeps_compute {I : Signals R → Prop} (net : Netlist) (r : Nat) : Keeps I (net.compute r) := by
  unfold compute
  split
  · exact keeps_throw _
  · exact keeps_throw _
  · exact (keeps_known _).bind fun _ => keeps_pure _
  · exact keeps_throw _
  · exact (keeps_known _).bind fun _ => keeps_pure _
  · exact keeps_throw _
  · exact (keeps_known _).bind fun _ => (keeps_known _).bind fun _ => keeps_pure _
  · exact (keeps_known _).bind fun _ => keeps_pure _

/-- Evaluating a node leaves vacant negations alone. -/
theorem fits_evaluate (h : net.Sound n) {r : Nat} (hr : net.gate r ≠ .not none) :
    Keeps (Signals.Fits net) (net.evaluate r : SignalM R R) := by
  refine Keeps.bind ?_ fun _ => keeps_known r
  refine Visit.run_keeps (P := fun r => net.gate r ≠ .not none) ?_ ?_ _
    ?_
  · intro r s hr hs _
    exact ((keeps_compute net r).bind fun x => fits_store hr x).left hs
  · intro r ds _ hds d hd
    cases hds
    exact h.operand_ne_vacant hd
  · intro t ht
    rw [List.mem_singleton.mp ht]
    exact hr

theorem fits_addGradient {r : Nat} (hr : net.gate r ≠ .not none) (d : R) :
    Keeps (Signals.Fits net) (net.addGradient r d) := by
  unfold addGradient
  split
  · exact keeps_throw _
  · exact fun _ hs => hs.update hr _

theorem keeps_gradient {I : Signals R → Prop} (r : Nat) : Keeps I (SignalM.gradient r) := fun _ hs => hs

/-- What evaluating the nodes that are asked for keeps, and adding to the operands, a push keeps. -/
theorem keeps_pushGradient {I : Signals R → Prop} {r : Nat}
    (heval : ∀ a, a = r ∨ a ∈ net.operands r → Keeps I (net.evaluate a : SignalM R R))
    (hadd : ∀ a ∈ net.operands r, ∀ d, Keeps I (net.addGradient a d)) :
    Keeps I (net.pushGradient r : SignalM R Unit) := by
  unfold pushGradient
  match hgate : net.gate r with
  | .plain => exact keeps_throw _
  | .input => exact keeps_throw _
  | .sigmoid a =>
    have ha : a ∈ net.operands r := by simp [operands, hgate]
    exact (heval r (.inl rfl)).bind fun _ => (keeps_gradient r).bind fun _ => hadd a ha _
  | .not none => exact keeps_throw _
  | .not (some a) =>
    have ha : a ∈ net.operands r := by simp [operands, hgate]
    exact (keeps_gradient r).bind fun _ => hadd a ha _
  | .binary op a none => exact keeps_throw _
  | .binary op a (some b) =>
    have ha : a ∈ net.operands r := by simp [operands, hgate]
    have hb : b ∈ net.operands r := by simp [operands, hgate]
    exact (heval a (.inr ha)).bind fun _ => (heval b (.inr hb)).bind fun _ => (keeps_gradient r).bind fun _ =>
      (hadd a ha _).bind fun _ => (keeps_gradient r).bind fun _ => hadd b hb _
  | .cost a =>
    have ha : a ∈ net.operands r := by simp [operands, hgate]
    exact (heval a (.inr ha)).bind fun _ => (keeps_gradient r).bind fun _ => hadd a ha _

theorem fits_pushGradient (h : net.Sound n) {r : Nat} (hr : net.gate r ≠ .not none) :
    Keeps (Signals.Fits net) (net.pushGradient r : SignalM R Unit) := by
  refine keeps_pushGradient (fun a ha => fits_evaluate h ?_) fun a ha => fits_addGradient (h.operand_ne_vacant ha)
  rcases ha with rfl | ha
  · exact hr
  · exact h.operand_ne_vacant ha

/-- A gradient is pulled from consumers only. -/
theorem mem_consumers_of_pullTargets {r : Nat} {ds : List Ref} (h : net.pullTargets r = .ok ds) :
    ∀ d ∈ ds, d ∈ net.consumers r := by
  unfold pullTargets at h
  split at h
  · cases h
    exact fun d hd => hd
  · cases h
    exact fun d hd => absurd hd List.not_mem_nil
  · cases h
  · split at h
    · cases h
    · cases h
      exact fun d hd => hd

/-- Pulling a gradient leaves vacant negations alone, also when the pull is stopped. -/
theorem fits_pull (h : net.Sound n) {r : Nat} (hr : net.gate r ≠ .not none) :
    Keeps (Signals.Fits net) (net.pull r : SignalM R Unit) := by
  unfold pull
  split
  · exact keeps_throw _
  · refine Visit.run_keeps (P := fun r => net.gate r ≠ .not none) ?_
      ?_ _ ?_
    · intro r s hr hs _
      exact (Keeps.bind (fun _ hs => hs.update hr _) fun _ => fits_pushGradient h hr).left hs
    · intro r ds _ hds d hd
      exact h.consumer_ne_vacant (mem_consumers_of_pullTargets hds d hd)
    · intro t ht
      rw [List.mem_singleton.mp ht]
      exact hr

theorem fits_inputGradient (h : net.Sound n) (r : Nat) :
    Keeps (Signals.Fits net) (net.inputGradient r : SignalM R R) := by
  unfold inputGradient
  split
  · match hds : net.pullTargets r with
    | .error fault => exact keeps_throw _
    | .ok ds =>
      refine (keeps_forM fun d hd => ?_).bind fun _ => keeps_gradient r
      exact fits_pull h (h.consumer_ne_vacant (mem_consumers_of_pullTargets hds d hd))
  · exact keeps_throw _

theorem fits_hold (r : Nat) (x : R) : Keeps (Signals.Fits net) (net.hold r x) := by
  unfold hold
  match hgate : net.gate r with
  | .input => exact fits_store (by rw [hgate]; exact Gate.noConfusion) x
  | .plain | .sigmoid _ | .not _ | .binary _ _ _ | .cost _ => exact keeps_throw _

theorem fits_truth (h : net.Sound n) (r : Nat) : Keeps (Signals.Fits net) (net.truth r : SignalM R R) := by
  unfold truth
  match hgate : net.gate r with
  | .cost a => exact fits_evaluate h (h.operand_ne_vacant (r := r) (by simp [operands, hgate]))
  | .plain | .input | .sigmoid _ | .not _ | .binary _ _ _ => exact keeps_throw _

end Netlist

end SoftLogic
