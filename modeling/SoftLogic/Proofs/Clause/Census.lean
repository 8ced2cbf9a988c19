import Mathlib.Data.List.Range
import SoftLogic.Proofs.Clause.Conservation

/-!
# The nodes that clauses add

Assembling a clause that is accepted adds one gate for each operator of its text, in reading order and whether or not
the grammar derives the text, and then its cost (`Assembly.tags_assemble`).  Meanwhile the sigmoid of a variable gets
one consumer for each time that the variable stands in the text (`Assembly.grows_by_clauses`).
-/

namespace SoftLogic

namespace Symbol

/-- The tag of the gate that an operator becomes. -/
def tag? : Symbol → Option Char
  | .connective op => some op.symbol
  | .not => some '~'
  | _ => none

end Symbol

/-- The tags of the gates of a text, in reading order. -/
def tags (w : List Symbol) : List Char := w.filterMap Symbol.tag?

section Tags

variable (w : List Symbol)

@[simp] theorem tags_nil : tags [] = [] := rfl

@[simp] theorem tags_append (u w : List Symbol) : tags (u ++ w) = tags u ++ tags w := List.filterMap_append

theorem tags_cons (x : Symbol) (w : List Symbol) : tags (x :: w) = x.tag?.toList ++ tags w := by
  unfold tags
  rw [List.filterMap_cons]
  cases x.tag? <;> rfl

@[simp] theorem length_tags : (tags w).length = operators w := by
  induction w with
  | nil => rfl
  | cons x w ih => cases x <;> simp [tags_cons, Symbol.tag?, ih]

/-- An operator is a connective or a negation. -/
theorem operators_eq : operators w = w.countP Symbol.isConnective + w.count .not := by
  induction w with
  | nil => rfl
  | cons x w ih =>
    rw [List.countP_cons, List.count_cons]
    cases x <;> simp [ih, Symbol.isConnective] <;> omega

theorem count_tags_not : (tags w).count '~' = w.count .not := by
  induction w with
  | nil => rfl
  | cons x w ih =>
    rw [tags_cons, List.count_append, ih, List.count_cons]
    cases x with
    | connective op => cases op <;> simp [Symbol.tag?, Connective.symbol]
    | «variable» _ | not | openGroup | closeGroup => simp [Symbol.tag?, Nat.add_comm]

theorem count_tags_connective (op : Connective) : (tags w).count op.symbol = w.count (.connective op) := by
  induction w with
  | nil => rfl
  | cons x w ih =>
    rw [tags_cons, List.count_append, ih, List.count_cons]
    cases x with
    | connective op' => cases op <;> cases op' <;> simp [Symbol.tag?, Connective.symbol, Nat.add_comm]
    | not => cases op <;> simp [Symbol.tag?, Connective.symbol]
    | «variable» _ | openGroup | closeGroup => simp [Symbol.tag?]

/-- Operators have tags of their own. -/
theorem mem_tags {c : Char} (h : c ∈ tags w) : c = '^' ∨ c = 'v' ∨ c = '~' := by
  obtain ⟨x, -, hx⟩ := List.mem_filterMap.mp h
  cases x with
  | connective op =>
    cases op with
    | and => exact .inl (Option.some.inj hx).symm
    | or => exact .inr (.inl (Option.some.inj hx).symm)
  | not => exact .inr (.inr (Option.some.inj hx).symm)
  | «variable» _ | openGroup | closeGroup => cases hx

end Tags

namespace Tree

variable {net : Netlist} {n : Nat} {t : Tree}

/-- An operator of a tree stands at its place. -/
theorem StandsIn.symbol_eq (h : t.StandsIn net n) {x : Symbol} {r : Ref} (hmem : (x, r) ∈ t.entries n) {c : Char}
    (hc : x.tag? = some c) : net.symbol r = c := by
  induction t with
  | leaf k =>
    obtain ⟨rfl, -⟩ := Prod.mk.inj (List.mem_singleton.mp hmem)
    cases hc
  | not q t ih =>
    rcases List.mem_cons.mp hmem with heq | hmem
    · obtain ⟨rfl, rfl⟩ := Prod.mk.inj heq
      rw [Netlist.symbol, h.1]
      exact Option.some.inj hc
    · exact ih h.2 hmem
  | binary q op t u iht ihu =>
    rcases List.mem_append.mp hmem with hmem | hmem
    · exact iht h.2.1 hmem
    · rcases List.mem_cons.mp hmem with heq | hmem
      · obtain ⟨rfl, rfl⟩ := Prod.mk.inj heq
        rw [Netlist.symbol, h.1]
        exact Option.some.inj hc
      · exact ihu h.2.2 hmem

/-- What is said of the places of the operators is said of the operators in turn. -/
theorem map_places {g : Ref → Char} {next : Nat} {w : List Symbol}
    (h : ∀ x r c, (x, r) ∈ places n next w → x.tag? = some c → g r = c) :
    (List.range' next (operators w)).map g = tags w := by
  induction w generalizing next with
  | nil => rfl
  | cons x w ih =>
    have hhead : (List.range' next (operators [x])).map g = x.tag?.toList := by
      cases x with
      | connective op => simpa [Symbol.tag?] using h (.connective op) next op.symbol List.mem_cons_self rfl
      | not => simpa [Symbol.tag?] using h .not next '~' List.mem_cons_self rfl
      | «variable» _ | openGroup | closeGroup => simp [Symbol.tag?]
    have hrest := ih fun y r c hmem => h y r c (Drawing.places_cons n next x w ▸ List.mem_append_right _ hmem)
    rw [operators_cons, ← List.range'_append_1, List.map_append, hhead, hrest, tags_cons]

end Tree

namespace Netlist

/-- The tags of all nodes, in creation order. -/
def tags (net : Netlist) : List Char := net.nodes.toList.map fun node => node.gate.symbol

theorem tags_eq (net : Netlist) : net.tags = (List.range net.size).map net.symbol := by
  unfold tags
  rw [nodes_toList, List.map_map]
  rfl

end Netlist

namespace Assembly

variable {n : Nat} {reg reg' : Registry} {clause : String} {root : Ref}

/-- An accepted clause adds the gates of its operators in reading order, and then its cost. -/
theorem tags_assemble (h : reg.Sound n) (hok : assemble n (Circuit.sigmoidOf n) clause reg = .ok root reg') :
    ∃ tokens, Token.scan clause n = .ok tokens ∧
      reg'.net.tags = reg.net.tags ++ (SoftLogic.tags (tokens.map Token.symbol) ++ ['c']) := by
  obtain ⟨tokens, d, t, readings, hscan, hrun, hcollapse, hsize, hcost, hstands, -⟩ := assemble_draws h hok
  obtain ⟨hroot, hentries, -⟩ := Drawing.tree_conserves (n := n) hrun hcollapse
  obtain ⟨_, _, _, _, hcompletes⟩ := read_of_assemble h hok
  refine ⟨tokens, hscan, ?_⟩
  -- the places of the netlist are the old ones, those of the operators and that of the cost
  have hold : (List.range reg.size).map reg'.net.symbol = reg.net.tags := by
    rw [Netlist.tags_eq]
    refine List.map_congr_left fun r hr => ?_
    rw [Netlist.symbol, hcompletes.extends_start.gate_eq r (List.mem_range.mp hr), Netlist.symbol]
  have hnew : (List.range' reg.size (operators (tokens.map Token.symbol))).map reg'.net.symbol =
      SoftLogic.tags (tokens.map Token.symbol) :=
    Tree.map_places fun x r c hmem hc => hstands.symbol_eq (hentries.mem_iff.mpr hmem) hc
  have hlast : reg'.net.symbol root = 'c' := by rw [Netlist.symbol, hcost, Gate.symbol]
  have hrange : List.range reg'.net.size =
      List.range reg.size ++ (List.range' reg.size (operators (tokens.map Token.symbol)) ++ [root]) := by
    rw [show reg'.net.size = root + 1 from hsize, List.range_succ, hroot, List.range_add, List.append_assoc,
      List.range'_eq_map_range]
  rw [Netlist.tags_eq, hrange, List.map_append, List.map_append, hold, hnew, List.map_singleton, hlast]

/-- What accepted clauses add, one after the other. -/
theorem grows_by_clauses {clauses : List String} {roots : List Ref} (h : reg.Reachable n)
    (hok : clauses.mapM (assemble n (Circuit.sigmoidOf n)) reg = .ok roots reg') :
    ∃ words : List (List Symbol),
      List.Forall₂ (fun clause w => ∃ tokens, Token.scan clause n = .ok tokens ∧ tokens.map Token.symbol = w)
        clauses words ∧
      reg'.net.tags = reg.net.tags ++ words.flatMap (fun w => SoftLogic.tags w ++ ['c']) ∧
      ∀ k < n, (reg'.net.consumers (Circuit.sigmoidOf n k)).length =
        (reg.net.consumers (Circuit.sigmoidOf n k)).length + words.flatten.count (.variable k) := by
  induction clauses generalizing reg roots with
  | nil =>
    cases hok
    exact ⟨[], .nil, by simp, fun k _ => by simp⟩
  | cons clause clauses ih =>
    rw [List.mapM_cons] at hok
    obtain ⟨root, reg₁, hassemble, hok⟩ := Effect.of_bind_ok hok
    obtain ⟨rest, reg₂, hrest, hok⟩ := Effect.of_bind_ok hok
    cases hok
    obtain ⟨words, hwords, htags, hconsumers⟩ := ih (h.accepted hassemble) hrest
    obtain ⟨tokens, hscan, htags₁⟩ := tags_assemble h.sound hassemble
    obtain ⟨tokens', t, hscan', hmade, -⟩ := conserves_tokens h hassemble
    cases hscan.symm.trans hscan'
    refine ⟨tokens.map Token.symbol :: words, .cons ⟨tokens, hscan, rfl⟩ hwords, ?_, fun k hk => ?_⟩
    · rw [htags, htags₁, List.flatMap_cons, List.append_assoc]
    · obtain ⟨new, hnew, -, hlength⟩ := hmade.consumers k hk
      rw [hconsumers k hk, hnew, List.length_append, hlength, List.flatten_cons, List.count_append, Nat.add_assoc]

end Assembly

end SoftLogic
