import Mathlib.Logic.Relation
import SoftLogic.Proofs.Circuit.Session
import SoftLogic.Proofs.Clause.Numbering
import SoftLogic.Proofs.Netlist.Evaluation
import SoftLogic.Proofs.Scalar

/-!
# The representation of a circuit

What holds of the nodes of a circuit at any time, also after clauses that were rejected halfway:
`Registry.Consistent`.  Ids say nothing about dependencies, as the second operand of a connective is made after it;
that nothing depends on itself follows from the sizes of the formulas, which grow along every link.
-/

namespace SoftLogic

open Effect

/-- The nodes agree about their links, and the ids name the nodes. -/
structure Registry.Consistent (reg : Registry) : Prop where
  /-- Each link is held at both of its ends. -/
  mirrored : ∀ p m, (reg.net.consumers p).count m = (reg.net.operands m).count p
  /-- Only a sigmoid feeds several nodes. -/
  single : ∀ r, 1 < (reg.net.consumers r).length → ∃ k, reg.net.gate r = .sigmoid k
  /-- A cost feeds nothing. -/
  final : ∀ r a, reg.net.gate r = .cost a → reg.net.consumers r = []
  /-- No node depends on itself. -/
  acyclic : ∀ r, ¬Relation.TransGen (fun d m => d ∈ reg.net.operands m) r r
  /-- The ids grow in creation order. -/
  increasing : ∀ q r, q < r → r < reg.size → reg.net.id q < reg.net.id r
  drawn : ∀ r < reg.size, reg.net.id r < reg.nextId
  found : ∀ r < reg.size, reg.find? (reg.net.id r) = some r

/-- Formulas grow along the links, so no link leads back. -/
theorem Netlist.Sound.acyclic {net : Netlist} {n : Nat} (h : net.Sound n) (r : Ref) :
    ¬Relation.TransGen (fun d m => d ∈ net.operands m) r r := by
  have hrank : ∀ {d m : Ref}, Relation.TransGen (fun d m => d ∈ net.operands m) d m →
      net.rank n d < net.rank n m := by
    intro d m hpath
    induction hpath with
    | single hd => exact h.rank_lt hd
    | tail _ hd ih => exact Nat.lt_trans ih (h.rank_lt hd)
  exact fun hpath => Nat.lt_irrefl _ (hrank hpath)

/-! ### Registries -/

theorem Circuit.ordered_placeVariables (n : Nat) : Keeps Registry.Ordered (placeVariables n) :=
  (keeps_forM fun _ _ => (Assembly.ordered_place _).bind fun _ => keeps_pure _).bind fun _ =>
    keeps_forM fun _ _ => (Assembly.ordered_place _).bind fun _ => keeps_pure _

namespace Registry

variable {reg : Registry} {n : Nat}

theorem Reachable.ordered (h : reg.Reachable n) : reg.Ordered := by
  induction h with
  | start hreg =>
    have hempty : Registry.empty.Ordered :=
      ⟨fun _ r _ hr => absurd hr (Nat.not_lt_zero r), fun r hr => absurd hr (Nat.not_lt_zero r)⟩
    exact (Circuit.ordered_placeVariables n).ok hempty hreg
  | accepted _ hok ih => exact (Assembly.ordered_assemble _ _ _).ok ih hok
  | rejected _ herror ih => exact (Assembly.ordered_assemble _ _ _).error ih herror

theorem Reachable.consistent (h : reg.Reachable n) : reg.Consistent := by
  have hsound := h.sound.net
  have hordered := h.ordered
  refine ⟨hsound.mirrored, fun r hr => ?_, fun r a => hsound.consumers_of_cost, hsound.acyclic,
    hordered.increasing, hordered.drawn, fun r => hordered.find?⟩
  exact (hsound.single r).resolve_left (Nat.not_le_of_lt hr)

end Registry

/-- Clauses that are all accepted draw ids for no node as each of them does. -/
theorem Assembly.spare_mapM {n : Nat} {clauses : List String} {reg reg' : Registry} {roots : List Ref}
    (h : reg.Reachable n) (hok : clauses.mapM (assemble n (Circuit.sigmoidOf n)) reg = .ok roots reg') :
    reg'.spare = reg.spare + (clauses.flatMap (consumed n)).count .openGroup := by
  induction clauses generalizing reg roots with
  | nil =>
    cases hok
    exact (Int.add_zero _).symm
  | cons clause clauses ih =>
    rw [List.mapM_cons] at hok
    obtain ⟨root, reg₁, hassemble, hok⟩ := of_bind_ok hok
    obtain ⟨rest, reg₂, hrest, hok⟩ := of_bind_ok hok
    cases hok
    have hspare := spare_assemble h.sound clause
    rw [hassemble] at hspare
    rw [ih (h.accepted hassemble) hrest, List.flatMap_cons, List.count_append, Int.natCast_add, ← Int.add_assoc]
    exact congrArg (· + _) hspare

/-! ### Circuits -/

namespace Circuit

variable {c : Circuit}

theorem registry_assemble (c : Circuit) (clause : String) : (c.assemble clause).2.registry =
    left (Assembly.assemble c.numVars (sigmoidOf c.numVars) clause c.registry) := by
  unfold assemble
  cases Assembly.assemble c.numVars (sigmoidOf c.numVars) clause c.registry <;> rfl

/-- The ids without a node in the circuit of a program are those of the parentheses of its clauses. -/
theorem spare_of_ofProgram {p : Program} (hc : ofProgram p = .ok c) : c.registry.spare =
    ((significant p.clauses).flatMap (Assembly.consumed c.numVars)).count .openGroup := by
  obtain ⟨-, reg, hplace, hleaves, hok⟩ := of_ofProgram_ok hc
  have hspare : reg.spare = 0 := by
    unfold Registry.spare Registry.size
    rw [hleaves.nextId, hleaves.size, Int.sub_self]
  rw [Assembly.spare_mapM (.start hplace) hok, hspare, Int.zero_add]

end Circuit

/-! ### Sessions -/

/-- The clause that a call assembles. -/
def Call.clause? {R : Type} : Call R → Option String
  | .build clause => some clause
  | _ => none

namespace Session

variable {R : Type} [Numeric R] {c : Circuit}

/-- The clauses that calls assemble, accepted or not. -/
def built (calls : List (Call R)) : List String := calls.filterMap Call.clause?

theorem spare_call {t : Session R} (h : t.circuit.Wired) (call : Call R) :
    (t.call call).2.circuit.registry.spare = t.circuit.registry.spare +
      ((built [call]).flatMap (Assembly.consumed t.circuit.numVars)).count .openGroup := by
  cases call with
  | build clause =>
    have hbuilt : (built [Call.build (R := R) clause]).flatMap (Assembly.consumed t.circuit.numVars) =
        Assembly.consumed t.circuit.numVars clause := List.append_nil _
    rw [hbuilt]
    exact (congrArg _ (t.circuit.registry_assemble clause)).trans
      (Assembly.spare_assemble h.reachable.sound clause)
  | _ => exact (congrArg (fun c => c.registry.spare) (circuit_finish _)).trans (Int.add_zero _).symm

theorem spare_after {t : Session R} (h : t.Ready) (calls : List (Call R)) :
    (t.after calls).circuit.registry.spare = t.circuit.registry.spare +
      ((built calls).flatMap (Assembly.consumed t.circuit.numVars)).count .openGroup := by
  induction calls generalizing t with
  | nil => exact (Int.add_zero _).symm
  | cons call calls ih =>
    have hbuilt : built (call :: calls) = built [call] ++ built calls :=
      List.filterMap_append (l := [call])
    have hrest := ih (h.call call)
    rw [numVars_call, spare_call h.wired] at hrest
    rw [hbuilt, List.flatMap_append, List.count_append, Int.natCast_add, ← Int.add_assoc]
    exact hrest

/-- After any calls on an accepted circuit, its representation is consistent, and the ids that were drawn for no node
are as many as the opening parentheses taken so far. -/
theorem representation_after {p : Program} (hc : Circuit.ofProgram p = .ok c) (calls : List (Call R)) :
    ((start c).after calls).circuit.registry.Consistent ∧
      (((start c).after calls).circuit.registry.nextId : Int) - ((start c).after calls).circuit.registry.size =
        ((Circuit.significant p.clauses ++ built calls).flatMap
          (Assembly.consumed c.numVars)).count .openGroup := by
  obtain ⟨hcomplete, -⟩ := Circuit.complete_of_ofProgram hc
  have hready : (start c : Session R).Ready := ready_start hcomplete.wired
  refine ⟨(hready.after calls).wired.reachable.consistent, ?_⟩
  rw [List.flatMap_append, List.count_append, Int.natCast_add, ← Circuit.spare_of_ofProgram hc]
  exact spare_after hready calls

/-- `($0 ^` is rejected after its parenthesis was taken, `) (` before, and `($0)` is accepted. -/
theorem representation_after_rejections : ∃ (c : Circuit) (t : Session Extended),
    Circuit.ofProgram ⟨1, ["$0"]⟩ = .ok c ∧
      t = (start c).after [.build "($0 ^", .build ") (", .build "($0)"] ∧
      t.circuit.registry.Consistent ∧ (t.circuit.registry.nextId : Int) - t.circuit.registry.size = 2 := by
  obtain ⟨hconsistent, hspare⟩ := representation_after (R := Extended) Circuit.ofProgram_atom
    [.build "($0 ^", .build ") (", .build "($0)"]
  refine ⟨_, _, Circuit.ofProgram_atom, rfl, hconsistent, hspare.trans ?_⟩
  decide +kernel

end Session

end SoftLogic
