import SoftLogic.Proofs.Circuit.Propagation
import SoftLogic.Proofs.Circuit.Representation
import SoftLogic.Proofs.Clause.Census
import SoftLogic.Proofs.Netlist.Depth
import SoftLogic.Proofs.Netlist.Growth

/-!
# The statistics of a circuit

What the statistics of a circuit say about its clauses (`Statistics.Describes`): the counts of nodes and of edges are
those of the tokens in all clauses, the greatest fan-out is the number of times that some variable is written, and the
greatest depth comes from the formula with the greatest height.  Depth is measured for every circuit, whatever was
measured before (`Circuit.statistics_of_ofProgram`).
-/

namespace SoftLogic

/-! ### Counting keys -/

section Occurrences

variable {α : Type} [BEq α] [LawfulBEq α]

/-- The count of a key, zero if it has none. -/
def countOf (c : α) (counts : List (α × Nat)) : Nat := (counts.lookup c).getD 0

theorem countOf_cons (c k : α) (m : Nat) (counts : List (α × Nat)) :
    countOf c ((k, m) :: counts) = if k == c then m else countOf c counts := by
  unfold countOf
  rw [List.lookup_cons, BEq.comm]
  split <;> simp_all

theorem countOf_countKey (key c : α) (counts : List (α × Nat)) :
    countOf c (countKey key counts) = countOf c counts + if key == c then 1 else 0 := by
  induction counts with
  | nil =>
    rw [countKey, countOf_cons]
    exact (Nat.zero_add _).symm
  | cons e counts ih =>
    obtain ⟨k, m⟩ := e
    rw [countKey]
    by_cases hk : k = key
    · subst hk
      rw [if_pos (beq_self_eq_true k), countOf_cons, countOf_cons]
      split <;> rfl
    · rw [if_neg (by simpa using hk), countOf_cons, countOf_cons, ih]
      by_cases hc : k = c
      · subst hc
        simp [Ne.symm hk]
      · simp [hc]

omit [LawfulBEq α] in
theorem sum_countKey (key : α) (counts : List (α × Nat)) :
    ((countKey key counts).map Prod.snd).sum = (counts.map Prod.snd).sum + 1 := by
  induction counts with
  | nil => rfl
  | cons e counts ih =>
    obtain ⟨k, m⟩ := e
    rw [countKey]
    split
    · simp only [List.map_cons, List.sum_cons]
      omega
    · simp only [List.map_cons, List.sum_cons, ih]
      omega

/-- A key is found with the number of times that it occurs. -/
theorem countOf_occurrences (keys : List α) (c : α) : countOf c (occurrences keys) = keys.count c := by
  have hfold : ∀ counts : List (α × Nat), countOf c (keys.foldl (fun counts key => countKey key counts) counts) =
      countOf c counts + keys.count c := by
    induction keys with
    | nil => exact fun counts => rfl
    | cons key keys ih =>
      intro counts
      rw [List.foldl_cons, ih, countOf_countKey, List.count_cons]
      omega
  exact (hfold []).trans (Nat.zero_add _)

omit [LawfulBEq α] in
/-- Every key is counted. -/
theorem sum_occurrences (keys : List α) : ((occurrences keys).map Prod.snd).sum = keys.length := by
  have hfold : ∀ counts : List (α × Nat),
      ((keys.foldl (fun counts key => countKey key counts) counts).map Prod.snd).sum =
      (counts.map Prod.snd).sum + keys.length := by
    induction keys with
    | nil => exact fun counts => rfl
    | cons key keys ih =>
      intro counts
      rw [List.foldl_cons, ih, sum_countKey, List.length_cons]
      omega
  simpa [occurrences] using hfold []

end Occurrences

/-! ### Edges -/

namespace Netlist

variable {net : Netlist} {n : Nat}

theorem length_eq_sum_count {size : Nat} {l : List Ref} (h : ∀ m ∈ l, m < size) :
    l.length = ∑ m ∈ Finset.range size, l.count m := by
  have hsum := Multiset.sum_count_eq_card (s := Finset.range size) (m := (l : Multiset Ref))
    fun m hm => Finset.mem_range.mpr (h m (Multiset.mem_coe.mp hm))
  simpa using hsum.symm

/-- The links that are held at consumers are those that are held at operands. -/
theorem Sound.total_fanOuts (h : net.Sound n) : total net.fanOuts = net.edges := by
  have hconsumers : ∀ p, (net.consumers p).length = ∑ m ∈ Finset.range net.size, (net.consumers p).count m :=
    fun p => length_eq_sum_count fun m hm => lt_size_of_mem_operands (h.mem_operands_iff.mpr hm)
  have hoperands : ∀ m, (net.operands m).length = ∑ p ∈ Finset.range net.size, (net.operands m).count p :=
    fun m => length_eq_sum_count fun p hp => h.operand_lt_size hp
  have htotal : total net.fanOuts = ∑ p ∈ Finset.range net.size, (net.consumers p).length := by
    unfold fanOuts
    rw [nodes_toList, List.map_map]
    rfl
  calc total net.fanOuts
      = ∑ p ∈ Finset.range net.size, ∑ m ∈ Finset.range net.size, (net.consumers p).count m := by
        rw [htotal]
        exact Finset.sum_congr rfl fun p _ => hconsumers p
    _ = ∑ m ∈ Finset.range net.size, ∑ p ∈ Finset.range net.size, (net.operands m).count p := by
        rw [Finset.sum_comm]
        exact Finset.sum_congr rfl fun m _ => Finset.sum_congr rfl fun p _ => h.mirrored p m
    _ = net.edges := by
        rw [edges_eq_sum]
        exact Finset.sum_congr rfl fun m _ => (hoperands m).symm

/-- The number of operands of a gate with this tag that has all of them. -/
def arity (tag : Char) : Nat := if tag = 'i' then 0 else if tag = '^' ∨ tag = 'v' then 2 else 1

theorem sum_arity_tags (w : List Symbol) :
    ((SoftLogic.tags w).map arity).sum = 2 * w.countP Symbol.isConnective + w.count .not := by
  induction w with
  | nil => rfl
  | cons x w ih =>
    rw [tags_cons, List.map_append, List.sum_append, ih, List.countP_cons, List.count_cons]
    cases x with
    | connective op => cases op <;> simp [Symbol.tag?, Symbol.isConnective, Connective.symbol, arity] <;> omega
    | «variable» _ | not | openGroup | closeGroup => simp [Symbol.tag?, Symbol.isConnective, arity] <;> omega

theorem length_operands {r : Ref} (hopen : (net.gate r).isOpen = false) (hplain : net.gate r ≠ .plain) :
    (net.operands r).length = arity (net.symbol r) := by
  rw [operands, symbol]
  cases hgate : net.gate r with
  | plain => exact absurd hgate hplain
  | input | sigmoid _ | cost _ => rfl
  | not a =>
    cases a with
    | some _ => rfl
    | none =>
      rw [hgate] at hopen
      cases hopen
  | binary op a b =>
    cases b with
    | some _ => cases op <;> rfl
    | none =>
      rw [hgate] at hopen
      cases hopen

/-- Where nothing waits, the edges are told by the tags. -/
theorem edges_eq_sum_arity (h : ∀ r < net.size, (net.gate r).isOpen = false ∧ net.gate r ≠ .plain) :
    net.edges = (net.tags.map arity).sum := by
  rw [tags_eq, List.map_map, edges_eq_sum]
  refine (Finset.sum_congr rfl fun r hr => ?_ : _ = ∑ r ∈ Finset.range net.size, arity (net.symbol r))
  obtain ⟨hopen, hplain⟩ := h r (Finset.mem_range.mp hr)
  exact length_operands hopen hplain

end Netlist

/-! ### Depth -/

/-- The number of operators on the longest way down a formula. -/
def Formula.height : Formula → Nat
  | .var _ => 0
  | .not f => f.height + 1
  | .binary _ f g => max f.height g.height + 1

namespace Netlist

variable {net : Netlist} {n : Nat} {r : Ref} {f : Formula}

/-- A node is one level above the deepest of its operands. -/
theorem HasDepth.of_operands {as ds : List Nat} (hoperands : net.operands r = as)
    (h : List.Forall₂ net.HasDepth as ds) : net.HasDepth r (depthOver ds) := by
  classical
  have hmap : (∀ a ∈ as, ∃ d, net.HasDepth a d) ∧
      as.map (fun a => if h : ∃ d, net.HasDepth a d then h.choose else 0) = ds := by
    clear hoperands
    induction h with
    | nil => exact ⟨fun a ha => absurd ha List.not_mem_nil, rfl⟩
    | @cons a d as ds hd _ ih =>
      have hex : ∃ d, net.HasDepth a d := ⟨d, hd⟩
      refine ⟨List.forall_mem_cons.mpr ⟨hex, ih.1⟩, ?_⟩
      rw [List.map_cons, dif_pos hex, hex.choose_spec.unique hd, ih.2]
  rw [← hmap.2, ← hoperands]
  refine .above _ fun a ha => ?_
  have hex := hmap.1 a (hoperands ▸ ha)
  rw [dif_pos hex]
  exact hex.choose_spec

theorem depthOver_singleton (d : Nat) : depthOver [d] = d + 1 := by
  simp only [depthOver, List.foldl_cons, List.foldl_nil]
  omega

theorem depthOver_pair (d e : Nat) : depthOver [d, e] = max d e + 1 := by
  simp only [depthOver, List.foldl_cons, List.foldl_nil]
  omega

theorem CostOf.unique {g : Formula} (h : net.CostOf n r f) (h' : net.CostOf n r g) : f = g := by
  obtain ⟨a, hgate, hd⟩ := h
  obtain ⟨b, hgate', hd'⟩ := h'
  rw [hgate] at hgate'
  cases hgate'
  exact hd.unique hd'

/-- What stands for a formula is as deep as the formula is high, with one level more for the inputs. -/
theorem Denotes.hasDepth (h : net.Denotes n r f) (hnet : net.Sound n) : net.HasDepth r (f.height + 1) := by
  induction h with
  | @var r k hk hr hgate =>
    have hinput : net.HasDepth k 0 := .of_operands (by rw [operands, hnet.input k hk]; rfl) .nil
    have hnode := HasDepth.of_operands (by rw [operands, hgate]; rfl) (.cons hinput .nil)
    rwa [depthOver_singleton] at hnode
  | @not r a f hgate _ ih =>
    have hnode := HasDepth.of_operands (by rw [operands, hgate]; rfl) (.cons ih .nil)
    rwa [depthOver_singleton] at hnode
  | @binary r a b op f g hgate _ _ ihf ihg =>
    have hnode := HasDepth.of_operands (by rw [operands, hgate]; rfl) (.cons ihf (.cons ihg .nil))
    rwa [depthOver_pair, Nat.add_max_add_right] at hnode

/-- The cost of a formula is two levels higher than the formula. -/
theorem CostOf.hasDepth (h : net.CostOf n r f) (hnet : net.Sound n) : net.HasDepth r (f.height + 2) := by
  obtain ⟨a, hgate, hd⟩ := h
  have hnode := HasDepth.of_operands (by rw [operands, hgate]; rfl) (.cons (hd.hasDepth hnet) .nil)
  rwa [depthOver_singleton] at hnode

end Netlist

/-- The nodes of a reachable registry have ids of their own. -/
theorem Registry.Reachable.labelled {reg : Registry} {n : Nat} (h : reg.Reachable n) : reg.net.Labelled := by
  refine ⟨fun q hq r hr hid => ?_, fun r a ha => h.sound.net.operand_lt_size ha⟩
  rcases Nat.lt_trichotomy q r with hlt | heq | hlt
  · exact absurd hid (Int.ne_of_lt (h.ordered.increasing q r hlt hr))
  · exact heq
  · exact absurd hid.symm (Int.ne_of_lt (h.ordered.increasing r q hlt hq))

/-! ### Fan-out -/

theorem foldl_max_le {l : List Nat} {b c : Nat} (hb : b ≤ c) (h : ∀ a ∈ l, a ≤ c) : l.foldl max b ≤ c := by
  induction l generalizing b with
  | nil => exact hb
  | cons a l ih =>
    obtain ⟨ha, hl⟩ := List.forall_mem_cons.mp h
    exact ih (Nat.max_le.mpr ⟨hb, ha⟩) hl

theorem foldl_max_add (l : List Nat) (b c : Nat) : (l.map (· + c)).foldl max (b + c) = l.foldl max b + c := by
  induction l generalizing b with
  | nil => rfl
  | cons a l ih => rw [List.map_cons, List.foldl_cons, Nat.add_max_add_right, ih, List.foldl_cons]

namespace Circuit

variable {c : Circuit} {lines : List String}

/-- Where nothing waits, every node but the sigmoids and the costs feeds one other. -/
theorem Complete.length_consumers (h : c.Complete lines) {r : Nat} (hr : r < c.net.size)
    (hsigmoid : ∀ k < c.numVars, r ≠ sigmoidOf c.numVars k) (hcost : ∀ a, c.net.gate r ≠ .cost a) :
    (c.net.consumers r).length = 1 := by
  have hsound : c.net.Sound c.numVars := h.reachable.sound.net
  have hne : c.net.consumers r ≠ [] := by
    by_cases hrn : r < c.numVars
    · -- an input is read by its sigmoid
      have hmem : r ∈ c.net.operands (sigmoidOf c.numVars r) := by
        rw [Netlist.operands, hsound.sigmoid r hrn]
        exact List.mem_singleton_self r
      exact List.ne_nil_of_mem (hsound.mem_operands_iff.mp hmem)
    · have hle : 2 * c.numVars ≤ r := by
        by_contra hlt
        exact hsigmoid (r - c.numVars) (by omega) (by unfold sigmoidOf; omega)
      intro hnil
      obtain ⟨a, ha⟩ := (h.closed r hle hr).2 hnil
      exact hcost a ha
  have hpos := List.length_pos_iff.mpr hne
  rcases hsound.single r with hle | ⟨k, hk⟩
  · omega
  · by_cases hrn : r < c.numVars
    · rw [hsound.input r hrn] at hk
      cases hk
    · cases hsound.stage_of_le (Nat.le_of_not_lt hrn) hr with
      | vacant hg _ => rw [hg] at hk; cases hk
      | waiting hg _ _ => rw [hg] at hk; cases hk
      | finished hd =>
        cases hd with
        | var hj hr' _ => exact absurd hr' (hsigmoid _ hj)
        | not hg _ => rw [hg] at hk; cases hk
        | binary hg _ _ => rw [hg] at hk; cases hk
      | root hg _ _ => exact absurd hg (hcost _)

/-- Where nothing waits, every node has all its operands. -/
theorem Complete.isOpen_eq_false (h : c.Complete lines) {r : Nat} (hr : r < c.net.size) :
    (c.net.gate r).isOpen = false ∧ c.net.gate r ≠ .plain := by
  have hsound : c.net.Sound c.numVars := h.reachable.sound.net
  by_cases hrn : r < c.numVars
  · rw [hsound.input r hrn]
    exact ⟨rfl, Gate.noConfusion⟩
  · have hopen : (c.net.gate r).isOpen = false := by
      by_cases hlt : r < 2 * c.numVars
      · rw [(hsound.sigmoid_of_le (Nat.le_of_not_lt hrn) hlt).2]
        rfl
      · exact (h.closed r (Nat.le_of_not_lt hlt) hr).1
    refine ⟨hopen, fun hplain => ?_⟩
    cases hsound.stage_of_le (Nat.le_of_not_lt hrn) hr with
    | vacant hg _ | waiting hg _ _ | root hg _ _ =>
      rw [hg] at hplain
      cases hplain
    | finished hd => exact hd.gate_ne_plain hplain

/-- The greatest fan-out is that of an input or of the sigmoid of the variable that is read most often. -/
theorem Complete.foldl_max_fanOuts (h : c.Complete lines) (hn : 1 ≤ c.numVars) {occ : Nat → Nat}
    (hocc : ∀ k < c.numVars, (c.net.consumers (sigmoidOf c.numVars k)).length = occ k) :
    c.net.fanOuts.foldl max 0 = max 1 (((List.range c.numVars).map occ).foldl max 0) := by
  have hsound : c.net.Sound c.numVars := h.reachable.sound.net
  have hle := hsound.le_size
  have hfanOuts : c.net.fanOuts = (List.range c.net.size).map fun r => (c.net.consumers r).length := by
    unfold Netlist.fanOuts
    rw [Netlist.nodes_toList, List.map_map]
    rfl
  have hmem : ∀ r < c.net.size, (c.net.consumers r).length ≤ c.net.fanOuts.foldl max 0 := fun r hr =>
    Netlist.le_foldl_max 0 (hfanOuts ▸ List.mem_map_of_mem (List.mem_range.mpr hr))
  refine Nat.le_antisymm (foldl_max_le (Nat.zero_le _) fun d hd => ?_) (Nat.max_le.mpr ⟨?_, ?_⟩)
  · rw [hfanOuts] at hd
    obtain ⟨r, hr, rfl⟩ := List.mem_map.mp hd
    by_cases hsigmoid : ∃ k < c.numVars, r = sigmoidOf c.numVars k
    · obtain ⟨k, hk, rfl⟩ := hsigmoid
      rw [hocc k hk]
      exact le_max_of_le_right (Netlist.le_foldl_max 0 (List.mem_map_of_mem (List.mem_range.mpr hk)))
    · refine le_max_of_le_left ?_
      by_cases hcost : ∃ a, c.net.gate r = .cost a
      · obtain ⟨a, ha⟩ := hcost
        rw [hsound.consumers_of_cost ha]
        exact Nat.zero_le 1
      · push Not at hsigmoid hcost
        exact Nat.le_of_eq (h.length_consumers (List.mem_range.mp hr) hsigmoid hcost)
  · -- the first input
    have hone := h.length_consumers (r := 0) (by omega) (fun k _ => by unfold sigmoidOf; omega)
      fun a ha => by rw [hsound.input 0 hn] at ha; cases ha
    exact hone ▸ hmem 0 (by omega)
  · refine foldl_max_le (Nat.zero_le _) fun d hd => ?_
    obtain ⟨k, hk, rfl⟩ := List.mem_map.mp hd
    have hk := List.mem_range.mp hk
    rw [← hocc k hk]
    exact hmem _ (by unfold sigmoidOf; omega)

end Circuit

/-! ### What the statistics say -/

/-- The number of nodes of a kind. -/
def Statistics.count (s : Statistics) (tag : Char) : Nat := countOf tag s.operations

/-- The statistics are those of clauses with these symbols and formulas over `n` variables. -/
structure Statistics.Describes (s : Statistics) (n : Nat) (words : List (List Symbol)) (formulas : List Formula) :
    Prop where
  nodes : s.nodes = 2 * n + words.flatten.countP Symbol.isConnective + words.flatten.count .not + words.length
  edges : s.edges = n + 2 * words.flatten.countP Symbol.isConnective + words.flatten.count .not + words.length
  numVars : s.numVars = n
  clauses : s.clauses = words.length
  /-- Each edge is held at both ends. -/
  fanOut : s.fanOut = s.edges
  averageFanOut : s.averageFanOut = s.edges.toFloat / s.nodes.toFloat
  maxFanOut : s.maxFanOut = max 1 (((List.range n).map fun k => words.flatten.count (.variable k)).foldl max 0)
  maxDepth : s.maxDepth = if formulas = [] then 0 else (formulas.map Formula.height).foldl max 0 + 2
  /-- There are no kinds of nodes but those that follow. -/
  operations : (s.operations.map Prod.snd).sum = s.nodes
  inputs : s.count 'i' = n
  sigmoids : s.count 's' = n
  costs : s.count 'c' = words.length
  negations : s.count '~' = words.flatten.count .not
  connectives : ∀ op : Connective, s.count op.symbol = words.flatten.count (.connective op)

/-- The tags of the nodes of a circuit, but for their order: an input and a sigmoid for each variable, the gates of the
clauses, and the costs. -/
theorem Circuit.tags_perm {words : List (List Symbol)} :
    (words.flatMap fun w => tags w ++ ['c']).Perm (tags words.flatten ++ List.replicate words.length 'c') := by
  induction words with
  | nil => exact .nil
  | cons w words ih =>
    rw [List.flatMap_cons, List.flatten_cons, tags_append, List.length_cons, List.replicate_succ, List.append_assoc,
      List.append_assoc]
    refine ((ih.append_left ['c']).trans ?_).append_left (tags w)
    rw [List.singleton_append]
    exact List.perm_middle.symm

theorem Registry.Leaves.tags_eq {reg : Registry} {n : Nat} (h : reg.Leaves n n) :
    reg.net.tags = List.replicate n 'i' ++ List.replicate n 's' := by
  rw [Netlist.tags_eq, h.size, List.range_add, List.map_append, List.map_map]
  refine congrArg₂ _ (List.eq_replicate_iff.mpr ⟨by simp, fun c hc => ?_⟩)
    (List.eq_replicate_iff.mpr ⟨by simp, fun c hc => ?_⟩)
  · obtain ⟨r, hr, rfl⟩ := List.mem_map.mp hc
    rw [Netlist.symbol, h.gate, if_pos (List.mem_range.mp hr), Gate.symbol]
  · obtain ⟨r, hr, rfl⟩ := List.mem_map.mp hc
    have hr := List.mem_range.mp hr
    show reg.net.symbol (n + r) = 's'
    rw [Netlist.symbol, h.gate, if_neg (by omega), if_pos (by omega), Gate.symbol]

namespace Circuit

variable {c : Circuit} {lines : List String} {formulas : List Formula}

/-- Costs of a circuit are measured in any order and however often, and each is two levels deeper than its formula is
high. -/
theorem Complete.mapM_depth_ok (h : c.Complete lines) {roots : List Ref} (hroots : ∀ r ∈ roots, r ∈ c.roots) :
    ∃ ds depths, (roots.mapM c.net.depth).run [] = .ok (ds, depths) ∧
      List.Forall₂ (fun r d => ∃ f, c.net.CostOf c.numVars r f ∧ d = f.height + 2) roots ds := by
  have hsound : c.net.Sound c.numVars := h.reachable.sound.net
  obtain ⟨fs, hformulas⟩ := h.exists_formulas
  have hcost : ∀ r ∈ roots, ∃ f, c.net.CostOf c.numVars r f := fun r hr =>
    forall_of_forall₂ (P := fun r => ∃ f, c.net.CostOf c.numVars r f) hformulas.denoted (fun _ f hf => ⟨f, hf⟩) r
      (hroots r hr)
  obtain ⟨ds, depths, hok, -, hds⟩ := Netlist.mapM_depth_ok h.reachable.labelled (fun r hr => by
    obtain ⟨f, a, hgate, hd⟩ := hcost r hr
    have hlt : r < c.net.size := Netlist.lt_size_of_gate (by simp [hgate])
    exact ⟨hlt, _, Netlist.CostOf.hasDepth ⟨a, hgate, hd⟩ hsound⟩) (Netlist.faithful_nil c.net)
  refine ⟨ds, depths, hok, ((List.forall₂_and_left _ _).mpr ⟨fun r hr => hr, hds⟩).imp ?_⟩
  rintro r d ⟨hr, hd⟩
  obtain ⟨f, hf⟩ := hcost r hr
  exact ⟨f, hf, hd.unique (hf.hasDepth hsound)⟩

/-- The greatest depth is that of the highest formula, in whatever order the costs are measured. -/
theorem Complete.maxDepth_ok (h : c.Complete lines) (hformulas : c.HasFormulas lines formulas) {roots : List Ref}
    (hroots : roots.Perm c.roots) : c.net.maxDepth roots =
      .ok (if formulas = [] then 0 else (formulas.map Formula.height).foldl max 0 + 2) := by
  obtain ⟨ds, depths, hok, hds⟩ := h.mapM_depth_ok fun r hr => hroots.mem_iff.mp hr
  have hmax : c.net.maxDepth roots = .ok (ds.foldl max 0) := by
    unfold Netlist.maxDepth
    rw [hok]
    rfl
  -- in the order of the roots the depths are those of the formulas
  have hperm : ds.Perm (formulas.map fun f => f.height + 2) := by
    obtain ⟨fs, hfs, hformulas'⟩ := List.perm_comp_forall₂ hroots hformulas.denoted
    have hds : ds = fs.map fun f => f.height + 2 := by
      clear hok hmax hformulas' hroots
      induction hfs generalizing ds with
      | nil =>
        cases hds
        rfl
      | cons hf _ ih =>
        obtain ⟨d, ds, ⟨g, hg, rfl⟩, hrest, rfl⟩ := List.forall₂_cons_left_iff.mp hds
        rw [List.map_cons, ih ds hrest, hg.unique hf]
    exact hds ▸ hformulas'.map _
  rw [hmax, hperm.foldl_eq]
  match formulas with
  | [] => rfl
  | f :: fs =>
    have hadd := foldl_max_add (fs.map Formula.height) f.height 2
    rw [List.map_map] at hadd
    rw [if_neg (List.cons_ne_nil f fs)]
    simp only [List.map_cons, List.foldl_cons, Nat.zero_max]
    exact congrArg Except.ok hadd

/-- The clauses of a circuit as symbols: they tell the nodes of each kind, and how often each variable is read. -/
theorem exists_words {p : Program} (h : ofProgram p = .ok c) :
    ∃ words : List (List Symbol),
      List.Forall₂ (fun line w => ∃ tokens, Token.scan line c.numVars = .ok tokens ∧ tokens.map Token.symbol = w)
        (significant p.clauses) words ∧
      c.net.tags.Perm (List.replicate c.numVars 'i' ++ (List.replicate c.numVars 's' ++
        (tags words.flatten ++ List.replicate words.length 'c'))) ∧
      ∀ k < c.numVars, (c.net.consumers (sigmoidOf c.numVars k)).length = words.flatten.count (.variable k) := by
  obtain ⟨-, reg, hplace, hleaves, hok⟩ := of_ofProgram_ok h
  obtain ⟨words, hwords, htags, hconsumers⟩ := Assembly.grows_by_clauses (.start hplace) hok
  refine ⟨words, hwords, ?_, fun k hk => ?_⟩
  · show c.registry.net.tags.Perm _
    rw [htags, hleaves.tags_eq, List.append_assoc]
    exact (tags_perm.append_left _).append_left _
  · have hnil : reg.net.consumers (sigmoidOf c.numVars k) = [] := by
      rw [hleaves.consumers, if_neg (by unfold sigmoidOf; omega)]
    refine (hconsumers k hk).trans ?_
    rw [hnil, List.length_nil, Nat.zero_add]

/-- How often each tag occurs in a circuit. -/
theorem count_tags {words : List (List Symbol)} (hperm : c.net.tags.Perm (List.replicate c.numVars 'i' ++
      (List.replicate c.numVars 's' ++ (tags words.flatten ++ List.replicate words.length 'c')))) :
    c.net.tags.count 'i' = c.numVars ∧ c.net.tags.count 's' = c.numVars ∧ c.net.tags.count 'c' = words.length ∧
      c.net.tags.count '~' = words.flatten.count .not ∧
      ∀ op : Connective, c.net.tags.count op.symbol = words.flatten.count (.connective op) := by
  have hcount : ∀ tag, c.net.tags.count tag = (if 'i' == tag then c.numVars else 0) +
      ((if 's' == tag then c.numVars else 0) +
        ((tags words.flatten).count tag + if 'c' == tag then words.length else 0)) := by
    intro tag
    rw [hperm.count_eq]
    simp only [List.count_append, List.count_replicate]
  have hnone : ∀ tag, tag ≠ '^' → tag ≠ 'v' → tag ≠ '~' → (tags words.flatten).count tag = 0 := by
    intro tag hand hor hnot
    refine List.count_eq_zero.mpr fun hmem => ?_
    rcases mem_tags _ hmem with h | h | h
    · exact hand h
    · exact hor h
    · exact hnot h
  refine ⟨by simp [hcount, hnone], by simp [hcount, hnone], by simp [hcount, hnone], by simp [hcount, count_tags_not],
    fun op => ?_⟩
  have hop := count_tags_connective words.flatten op
  cases op <;> simpa [hcount, Connective.symbol] using hop

/-- The statistics of a circuit with at least one variable: how they come from the symbols and the formulas of its
clauses.  Measuring depth ends for the costs in any order, with the same result. -/
theorem statistics_of_ofProgram {p : Program} {c : Circuit} (h : ofProgram p = .ok c) (hn : 1 ≤ c.numVars) :
    ∃ words formulas s,
      List.Forall₂ (fun line w => ∃ tokens, Token.scan line c.numVars = .ok tokens ∧ tokens.map Token.symbol = w)
        (significant p.clauses) words ∧
      c.HasFormulas (significant p.clauses) formulas ∧ c.statistics = .ok s ∧
      s.Describes c.numVars words formulas ∧
      (∀ roots : List Ref, roots.Perm c.roots → c.net.maxDepth roots = .ok s.maxDepth) ∧
      ∀ roots : List Ref, (∀ r ∈ roots, r ∈ c.roots) →
        ∃ ds depths, (roots.mapM c.net.depth).run [] = .ok (ds, depths) ∧
          List.Forall₂ (fun r d => ∃ f, c.net.CostOf c.numVars r f ∧ d = f.height + 2) roots ds := by
  obtain ⟨hcomplete, -⟩ := complete_of_ofProgram h
  obtain ⟨words, hwords, hperm, hocc⟩ := exists_words h
  obtain ⟨formulas, hformulas⟩ := hcomplete.exists_formulas
  have hroots : c.roots.length = words.length := hcomplete.roots.length_eq.symm.trans hwords.length_eq
  have hdepth : ∀ roots : List Ref, roots.Perm c.roots → c.net.maxDepth roots =
      .ok (if formulas = [] then 0 else (formulas.map Formula.height).foldl max 0 + 2) := fun roots hroots =>
    hcomplete.maxDepth_ok hformulas hroots
  have hstatistics : c.statistics = .ok
      { nodes := c.net.size
        edges := c.net.edges
        numVars := c.numVars
        clauses := c.roots.length
        maxFanOut := c.net.fanOuts.foldl max 0
        fanOut := Netlist.total c.net.fanOuts
        maxDepth := if formulas = [] then 0 else (formulas.map Formula.height).foldl max 0 + 2
        operations := occurrences c.net.tags } := by
    unfold statistics
    rw [hdepth c.roots .rfl]
    rfl
  refine ⟨words, formulas, _, hwords, hformulas, hstatistics, ?_, hdepth,
    fun roots hroots => hcomplete.mapM_depth_ok hroots⟩
  -- the nodes are counted by their tags, and so are the edges, as every node has all its operands
  have hsize : c.net.size = c.net.tags.length := by rw [Netlist.tags_eq, List.length_map, List.length_range]
  have hnodes := hperm.length_eq
  simp only [List.length_append, List.length_replicate, length_tags, operators_eq] at hnodes
  have hedges : c.net.edges = (c.net.tags.map Netlist.arity).sum :=
    Netlist.edges_eq_sum_arity fun r hr => hcomplete.isOpen_eq_false hr
  rw [(hperm.map Netlist.arity).sum_eq] at hedges
  simp only [List.map_append, List.sum_append, List.map_replicate, List.sum_replicate, Netlist.sum_arity_tags] at hedges
  have htotal : Netlist.total c.net.fanOuts = c.net.edges := Netlist.Sound.total_fanOuts hcomplete.reachable.sound.net
  obtain ⟨hinputs, hsigmoids, hcosts, hnegations, hconnectives⟩ := count_tags hperm
  exact {
    nodes := by
      simp only
      omega
    edges := by
      simp only
      rw [hedges]
      simp [Netlist.arity]
      omega
    numVars := rfl
    clauses := hroots
    fanOut := htotal
    averageFanOut := by
      unfold Statistics.averageFanOut
      simp only
      rw [if_neg (by omega), htotal]
    maxFanOut := hcomplete.foldl_max_fanOuts hn hocc
    maxDepth := rfl
    operations := (sum_occurrences _).trans hsize.symm
    inputs := (countOf_occurrences _ _).trans hinputs
    sigmoids := (countOf_occurrences _ _).trans hsigmoids
    costs := (countOf_occurrences _ _).trans hcosts
    negations := (countOf_occurrences _ _).trans hnegations
    connectives := fun op => (countOf_occurrences _ _).trans (hconnectives op) }

/-- Two clauses, the second of which is a bare variable: the first one is three levels deep below its cost. -/
theorem statistics_of_two_clauses : ∃ c s, ofProgram ⟨2, ["~$0 v $1", "$0"]⟩ = .ok c ∧ 1 ≤ c.numVars ∧
    c.statistics = .ok s ∧ s.nodes = 8 ∧ s.edges = 7 ∧ s.maxFanOut = 2 ∧ s.maxDepth = 4 := by
  have hlines : significant ["~$0 v $1", "$0"] = ["~$0 v $1", "$0"] := by decide
  have hfirst : Token.scan "~$0 v $1" 2 =
      .ok [⟨.not, 0⟩, ⟨.variable 0, 1⟩, ⟨.connective .or, 4⟩, ⟨.variable 1, 6⟩] := by decide
  have hsecond : Token.scan "$0" 2 = .ok [⟨.variable 0, 0⟩] := by decide
  let e : Expression := .chain (.operand (.not (.var 0))) .or (.var 1)
  have hderived : List.Forall₂ (fun line e => Expression.Derives e 2 line) (significant ["~$0 v $1", "$0"])
      [e, .operand (.var 0)] := by
    rw [hlines]
    exact .cons ⟨_, hfirst, rfl⟩ (.cons ⟨_, hsecond, rfl⟩ .nil)
  obtain ⟨c, hc, hnum⟩ := ofProgram_ok (p := ⟨2, ["~$0 v $1", "$0"]⟩) (n := 2) rfl hderived
  have hn : 1 ≤ c.numVars := by
    rw [hnum]
    decide
  obtain ⟨words, formulas, s, hwords, hformulas, hs, hdescribes, -⟩ := statistics_of_ofProgram hc hn
  have hwords : words = [[.not, .variable 0, .connective .or, .variable 1], [.variable 0]] := by
    rw [hlines, hnum] at hwords
    obtain ⟨w, ws, ⟨tokens, hscan, rfl⟩, hrest, rfl⟩ := List.forall₂_cons_left_iff.mp hwords
    obtain ⟨w, ws, ⟨tokens', hscan', rfl⟩, hnil, rfl⟩ := List.forall₂_cons_left_iff.mp hrest
    obtain rfl := List.forall₂_nil_left_iff.mp hnil
    cases hfirst.symm.trans hscan
    cases hsecond.symm.trans hscan'
    rfl
  have hformulas : formulas = [e.formula, .var 0] := by
    have hderived := hformulas.derived
    rw [hlines, hnum] at hderived
    obtain ⟨f, fs, ⟨tokens, hscan, hf⟩, hrest, rfl⟩ := List.forall₂_cons_left_iff.mp hderived
    obtain ⟨g, fs, ⟨tokens', hscan', hg⟩, hnil, rfl⟩ := List.forall₂_cons_left_iff.mp hrest
    obtain rfl := List.forall₂_nil_left_iff.mp hnil
    cases hfirst.symm.trans hscan
    cases hsecond.symm.trans hscan'
    rw [← hf e rfl, ← hg (.operand (.var 0)) rfl]
    rfl
  subst hwords
  subst hformulas
  rw [hnum] at hdescribes
  exact ⟨c, s, hc, hn, hs, hdescribes.nodes, hdescribes.edges, hdescribes.maxFanOut, hdescribes.maxDepth⟩

end Circuit

end SoftLogic
