import Mathlib.Data.Finset.Card
import Mathlib.Logic.Relation
import SoftLogic.Proofs.Netlist.Walk

/-!
# Walks as recursion

What a walk does with its list of open tasks is a recursion: a node that is settled is left alone, and before any other
one is settled, its dependencies are dealt with, the last of them first (`Visit.recurse`).  Where no chain of
dependencies goes on forever, both have the same outcome, whether they return or not, and leave the same state
(`Visit.Lawful.run_eq_recurse`).

What a recursion settles lies beneath the node that it starts from (`Visit.Lawful.recurse_ok`), and if it stops, it
stops at such a node (`Visit.Lawful.recurse_error`).  A walk can also note down what it settles
(`Visit.logging`), and so it is seen to settle nothing twice.
-/

namespace SoftLogic

namespace Visit

open Effect

variable {σ : Type} {v : Visit σ} {I : σ → Prop} {size : Nat}

/-! ### Dependencies -/

/-- The nodes that a node depends on. -/
def before (v : Visit σ) (r : Ref) : List Ref := (v.dependencies r).toOption.getD []

/-- The dependencies lead from one node to another. -/
abbrev Reaches (v : Visit σ) : Ref → Ref → Prop := Relation.ReflTransGen fun r d => d ∈ v.before r

/-- The dependencies lead from one node to another through nodes that are not settled, from the first to the last. -/
def Exposed (v : Visit σ) (s : σ) (r q : Ref) : Prop :=
  v.settled s r = false ∧ Relation.ReflTransGen (fun m d => d ∈ v.before m ∧ v.settled s d = false) r q

variable {r d q : Ref} {ds : List Ref} {fault : Fault} {s s' s'' : σ}

theorem before_of_ok (h : v.dependencies r = .ok ds) : v.before r = ds := by
  rw [before, h]
  rfl

theorem Exposed.refl (h : v.settled s r = false) : v.Exposed s r r := ⟨h, .refl⟩

theorem Exposed.open (h : v.Exposed s r q) : v.settled s q = false := by
  obtain ⟨hr, hpath⟩ := h
  cases hpath with
  | refl => exact hr
  | tail _ hq => exact hq.2

theorem Exposed.head (hr : v.settled s r = false) (hd : d ∈ v.before r) (h : v.Exposed s d q) : v.Exposed s r q :=
  ⟨hr, .head ⟨hd, h.1⟩ h.2⟩

theorem Exposed.reaches (h : v.Exposed s r q) : v.Reaches r q :=
  Relation.ReflTransGen.mono (fun _ _ hd => hd.1) _ _ h.2

/-- What is exposed after some nodes were settled was exposed before. -/
theorem Exposed.of_settled (h : v.Exposed s' r q) (hmono : ∀ q, v.settled s q = true → v.settled s' q = true) :
    v.Exposed s r q := by
  have hopen : ∀ q, v.settled s' q = false → v.settled s q = false := by
    intro q hq
    by_contra hs
    rw [hmono q (by simpa using hs)] at hq
    cases hq
  exact ⟨hopen r h.1, Relation.ReflTransGen.mono (fun m d hd => ⟨hd.1, hopen d hd.2⟩) _ _ h.2⟩

/-- No node is beneath its dependencies. -/
theorem not_reaches_of_mem_before (hwf : WellFounded fun d r => d ∈ v.before r) (hd : d ∈ v.before r) :
    ¬v.Reaches d r := by
  intro hback
  have hcycle : Relation.TransGen (fun r d => d ∈ v.before r) r r := .head' hd hback
  have hirrefl := hwf.transGen.asymmetric r r (Relation.transGen_swap.mp hcycle)
  exact hirrefl (Relation.transGen_swap.mp hcycle)

/-! ### The recursion -/

theorem forM_attach_reverse {m : Type → Type} [Monad m] [LawfulMonad m] {α : Type} (l : List α)
    (f : α → m Unit) : (l.attach.reverse.forM fun a => f a.1) = l.reverse.forM f := by
  have hvals : l.attach.reverse.map Subtype.val = l.reverse := by rw [List.map_reverse, List.attach_map_subtype_val]
  rw [← hvals]
  exact List.forM_map.symm

/-- Settles a node after its dependencies, the last of them first. -/
def recurse (v : Visit σ) (h : WellFounded fun d r => d ∈ v.before r) (r : Ref) : EStateM Fault σ Unit := do
  if v.settled (← get) r then return ()
  else
    match v.dependencies r with
    | .error fault => throw fault
    | .ok _ =>
      (v.before r).attach.reverse.forM fun d => v.recurse h d.1
      v.settle r
termination_by h.wrap r
decreasing_by exact d.2

variable (hwf : WellFounded fun d r => d ∈ v.before r)

theorem recurse_of_settled (hr : v.settled s r = true) : v.recurse hwf r s = .ok () s := by
  rw [recurse, get_bind, if_pos hr]
  rfl

theorem recurse_of_error (hr : v.settled s r = false) (hds : v.dependencies r = .error fault) :
    v.recurse hwf r s = .error fault s := by
  rw [recurse, get_bind, if_neg (by simp [hr]), hds]
  rfl

theorem recurse_of_ok (hr : v.settled s r = false) (hds : v.dependencies r = .ok ds) :
    v.recurse hwf r s = (ds.reverse.forM (v.recurse hwf) >>= fun _ => v.settle r) s := by
  rw [recurse, get_bind, if_neg (by simp [hr]), hds, before_of_ok hds]
  show ((ds.attach.reverse.forM fun d => v.recurse hwf d.1) >>= fun _ => v.settle r) s = _
  rw [forM_attach_reverse ds (v.recurse hwf)]

/-! ### What a recursion settles -/

/-- From `s` to `s'` nodes of `P` were settled, each after its dependencies. -/
structure Advances (v : Visit σ) (I : σ → Prop) (P : Ref → Prop) (s s' : σ) : Prop where
  keeps : I s'
  mono : ∀ q, v.settled s q = true → v.settled s' q = true
  settled : ∀ q, v.settled s q = false → v.settled s' q = true →
    P q ∧ (∃ t t', v.settle q t = .ok () t') ∧ ∀ d ∈ v.before q, v.settled s' d = true

variable {P Q : Ref → Prop}

theorem Advances.refl (h : I s) : v.Advances I P s s :=
  ⟨h, fun _ hq => hq, fun q hq hq' => absurd hq' (by simp [hq])⟩

theorem Advances.weaken (h : v.Advances I P s s') (hPQ : ∀ q, P q → Q q) : v.Advances I Q s s' :=
  ⟨h.keeps, h.mono, fun q hq hq' => ⟨hPQ q (h.settled q hq hq').1, (h.settled q hq hq').2⟩⟩

theorem Advances.trans (h : v.Advances I P s s') (h' : v.Advances I P s' s'') : v.Advances I P s s'' := by
  refine ⟨h'.keeps, fun q hq => h'.mono q (h.mono q hq), fun q hq hq'' => ?_⟩
  by_cases hq' : v.settled s' q = true
  · obtain ⟨hP, hsettle, hbefore⟩ := h.settled q hq hq'
    exact ⟨hP, hsettle, fun d hd => h'.mono d (hbefore d hd)⟩
  · exact h'.settled q (by simpa using hq') hq''

/-- Where a node is settled, so is what was exposed beneath it. -/
theorem Advances.settled_of_exposed (h : v.Advances I P s s') (hr : v.settled s' r = true) (hq : v.Exposed s r q) :
    v.settled s' q = true := by
  obtain ⟨hopen, hpath⟩ := hq
  induction hpath with
  | refl => exact hr
  | tail hpath hd ih =>
    obtain ⟨-, -, hbefore⟩ := h.settled _ (Exposed.open ⟨hopen, hpath⟩) ih
    exact hbefore _ hd.1

/-- A walk over `size` nodes on which no chain of dependencies goes on forever.  What is kept of the state is what
settling a node keeps after its dependencies, and a node is settled once it has been settled, and nothing else is. -/
structure Lawful (v : Visit σ) (I : σ → Prop) (size : Nat) : Prop where
  wellFounded : WellFounded fun d r => d ∈ v.before r
  lt_size : ∀ r, ∀ d ∈ v.before r, d < size
  settle : ∀ r s s', r < size → I s → v.settled s r = false → (∀ d ∈ v.before r, v.settled s d = true) →
    v.settle r s = .ok () s' → I s' ∧ ∀ q, v.settled s' q = (v.settled s q || q == r)

theorem Lawful.lt_size_of_reaches (h : v.Lawful I size) (hr : r < size) (hq : v.Reaches r q) : q < size := by
  cases hq with
  | refl => exact hr
  | tail _ hq => exact h.lt_size _ q hq

/-- A loop over nodes settles what is exposed beneath them. -/
theorem advances_forM {nodes : List Ref} {f : Ref → EStateM Fault σ Unit}
    (hstep : ∀ d ∈ nodes, ∀ s s', I s → f d s = .ok () s' →
      v.Advances I (v.Exposed s d) s s' ∧ v.settled s' d = true) (hs : I s) (hok : nodes.forM f s = .ok () s') :
    v.Advances I (fun q => ∃ d ∈ nodes, v.Exposed s d q) s s' ∧ ∀ d ∈ nodes, v.settled s' d = true := by
  induction nodes generalizing s with
  | nil =>
    cases hok
    exact ⟨.refl hs, fun d hd => absurd hd List.not_mem_nil⟩
  | cons d nodes ih =>
    obtain ⟨⟨⟩, s₁, hd, hok⟩ := of_bind_ok hok
    obtain ⟨hfirst, hd₁⟩ := hstep d List.mem_cons_self s s₁ hs hd
    obtain ⟨hothers, hall⟩ := ih (fun c hc => hstep c (List.mem_cons_of_mem d hc)) hfirst.keeps hok
    refine ⟨(hfirst.weaken fun q hq => ?_).trans (hothers.weaken fun q => ?_), fun c hc => ?_⟩
    · exact ⟨d, List.mem_cons_self, hq⟩
    · rintro ⟨c, hc, hq⟩
      exact ⟨c, List.mem_cons_of_mem d hc, hq.of_settled hfirst.mono⟩
    · rcases List.mem_cons.mp hc with rfl | hc
      · exact hothers.mono _ hd₁
      · exact hall c hc

/-- Where the dependencies of a node were dealt with, they are settled, and the node is still to be settled. -/
theorem Lawful.advances_before (h : v.Lawful I size)
    (hstep : ∀ d ∈ v.before r, ∀ s s', I s → v.recurse h.wellFounded d s = .ok () s' →
      v.Advances I (v.Exposed s d) s s' ∧ v.settled s' d = true)
    (hr : v.settled s r = false) (hs : I s)
    (hloop : (v.before r).reverse.forM (v.recurse h.wellFounded) s = .ok () s') :
    v.Advances I (v.Exposed s r) s s' ∧ v.settled s' r = false ∧ ∀ d ∈ v.before r, v.settled s' d = true := by
  obtain ⟨hwalk, hall⟩ := advances_forM (fun d hd => hstep d (List.mem_reverse.mp hd)) hs hloop
  refine ⟨hwalk.weaken ?_, ?_, fun d hd => hall d (List.mem_reverse.mpr hd)⟩
  · rintro q ⟨d, hd, hq⟩
    exact hq.head hr (List.mem_reverse.mp hd)
  · by_contra hsettled
    obtain ⟨⟨d, hd, hexposed⟩, -⟩ := hwalk.settled r hr (by simpa using hsettled)
    exact not_reaches_of_mem_before h.wellFounded (List.mem_reverse.mp hd) hexposed.reaches

/-- A recursion that returns has settled its node, and beside it what was exposed beneath. -/
theorem Lawful.recurse_ok (h : v.Lawful I size) (hr : r < size) (hs : I s)
    (hok : v.recurse h.wellFounded r s = .ok () s') : v.Advances I (v.Exposed s r) s s' ∧ v.settled s' r = true := by
  induction r using h.wellFounded.induction generalizing s s' with
  | _ r ih =>
    by_cases hsettled : v.settled s r = true
    · rw [recurse_of_settled _ hsettled] at hok
      cases hok
      exact ⟨.refl hs, hsettled⟩
    · have hopen : v.settled s r = false := by simpa using hsettled
      cases hds : v.dependencies r with
      | error fault =>
        rw [recurse_of_error _ hopen hds] at hok
        cases hok
      | ok ds =>
        obtain rfl := before_of_ok hds
        rw [recurse_of_ok _ hopen hds] at hok
        obtain ⟨⟨⟩, s₁, hloop, hsettle⟩ := of_bind_ok hok
        obtain ⟨hbeneath, hopen₁, hall⟩ :=
          h.advances_before (fun d hd s s' => ih d hd (h.lt_size r d hd)) hopen hs hloop
        obtain ⟨hI, hexact⟩ := h.settle r s₁ s' hr hbeneath.keeps hopen₁ hall hsettle
        refine ⟨hbeneath.trans ⟨hI, fun q hq => by simp [hexact, hq], fun q hq hq' => ?_⟩, by simp [hexact]⟩
        -- the last node to be settled is `r` itself
        obtain rfl : q = r := by simpa [hexact, hq] using hq'
        exact ⟨.refl hopen, ⟨s₁, s', hsettle⟩, fun d hd => by simp [hexact, hall d hd]⟩

theorem Lawful.recurse_before (h : v.Lawful I size) (hr : v.settled s r = false) (hs : I s)
    (hloop : (v.before r).reverse.forM (v.recurse h.wellFounded) s = .ok () s') :
    v.Advances I (v.Exposed s r) s s' ∧ v.settled s' r = false ∧ ∀ d ∈ v.before r, v.settled s' d = true :=
  h.advances_before (fun d hd _ _ => h.recurse_ok (h.lt_size r d hd)) hr hs hloop

/-- What a recursion settles has dependencies to go by. -/
theorem Lawful.recurse_dependencies (h : v.Lawful I size) (hr : r < size) (hs : I s)
    (hok : v.recurse h.wellFounded r s = .ok () s') :
    ∀ q, v.settled s q = false → v.settled s' q = true → ∃ ds, v.dependencies q = .ok ds := by
  induction r using h.wellFounded.induction generalizing s s' with
  | _ r ih =>
    by_cases hsettled : v.settled s r = true
    · rw [recurse_of_settled _ hsettled] at hok
      cases hok
      exact fun q hq hq' => absurd hq' (by simp [hq])
    · have hopen : v.settled s r = false := by simpa using hsettled
      cases hds : v.dependencies r with
      | error fault =>
        rw [recurse_of_error _ hopen hds] at hok
        cases hok
      | ok ds =>
        obtain rfl := before_of_ok hds
        rw [recurse_of_ok _ hopen hds] at hok
        obtain ⟨⟨⟩, s₁, hloop, hsettle⟩ := of_bind_ok hok
        obtain ⟨hbeneath, hopen₁, hall⟩ := h.recurse_before hopen hs hloop
        obtain ⟨-, hexact⟩ := h.settle r s₁ s' hr hbeneath.keeps hopen₁ hall hsettle
        -- a node that the loop settles was settled in one of its rounds
        have hrounds : ∀ (nodes : List Ref), (∀ d ∈ nodes, d ∈ v.before r) → ∀ {s}, I s →
            nodes.forM (v.recurse h.wellFounded) s = .ok () s₁ →
            ∀ q, v.settled s q = false → v.settled s₁ q = true → ∃ ds, v.dependencies q = .ok ds := by
          intro nodes
          induction nodes with
          | nil =>
            rintro - s - ⟨⟩ q hq hq'
            exact absurd hq' (by simp [hq])
          | cons d nodes ihn =>
            intro hmem s hs hloop q hq hq'
            obtain ⟨⟨⟩, s₂, hd, hloop⟩ := of_bind_ok hloop
            have hdr := hmem d List.mem_cons_self
            by_cases hq₂ : v.settled s₂ q = true
            · exact ih d hdr (h.lt_size r d hdr) hs hd q hq hq₂
            · exact ihn (fun c hc => hmem c (List.mem_cons_of_mem d hc))
                (h.recurse_ok (h.lt_size r d hdr) hs hd).1.keeps hloop q (by simpa using hq₂) hq'
        intro q hq hq'
        by_cases hq₁ : v.settled s₁ q = true
        · exact hrounds _ (fun d hd => List.mem_reverse.mp hd) hs hloop q hq hq₁
        · obtain rfl : q = r := by simpa [hexact, hq₁] using hq'
          exact ⟨_, hds⟩

/-! ### Where a recursion stops -/

/-- From `s` nodes of `P` were settled, up to one whose dependencies were refused, or which could not be settled
after them. -/
inductive Stops (v : Visit σ) (I : σ → Prop) (P : Ref → Prop) (fault : Fault) (s s' : σ) : Prop
  | dependencies (q : Ref) : v.Advances I P s s' → P q → v.settled s' q = false → v.dependencies q = .error fault →
    Stops v I P fault s s'
  | settle (q : Ref) (t : σ) : v.Advances I P s t → P q → v.settled t q = false →
    (∀ d ∈ v.before q, v.settled t d = true) → v.settle q t = .error fault s' → Stops v I P fault s s'

theorem Stops.weaken (h : v.Stops I P fault s s') (hPQ : ∀ q, P q → Q q) : v.Stops I Q fault s s' := by
  cases h with
  | dependencies q hadvances hq hopen hds => exact .dependencies q (hadvances.weaken hPQ) (hPQ q hq) hopen hds
  | settle q t hadvances hq hopen hall herror =>
    exact .settle q t (hadvances.weaken hPQ) (hPQ q hq) hopen hall herror

theorem Advances.stops (h : v.Advances I P s s') (h' : v.Stops I P fault s' s'') : v.Stops I P fault s s'' := by
  cases h' with
  | dependencies q hadvances hq hopen hds => exact .dependencies q (h.trans hadvances) hq hopen hds
  | settle q t hadvances hq hopen hall herror => exact .settle q t (h.trans hadvances) hq hopen hall herror

theorem stops_forM {nodes : List Ref} {f : Ref → EStateM Fault σ Unit}
    (hok : ∀ d ∈ nodes, ∀ s s', I s → f d s = .ok () s' → v.Advances I (v.Exposed s d) s s')
    (herror : ∀ d ∈ nodes, ∀ s s', I s → f d s = .error fault s' → v.Stops I (v.Exposed s d) fault s s')
    (hs : I s) (h : nodes.forM f s = .error fault s') :
    v.Stops I (fun q => ∃ d ∈ nodes, v.Exposed s d q) fault s s' := by
  induction nodes generalizing s with
  | nil => cases h
  | cons d nodes ih =>
    change (f d >>= fun _ => nodes.forM f) s = _ at h
    cases hd : f d s with
    | error e s₁ =>
      rw [bind_of_error hd] at h
      cases h
      exact (herror d List.mem_cons_self s s' hs hd).weaken fun q hq => ⟨d, List.mem_cons_self, hq⟩
    | ok u s₁ =>
      rw [bind_of_ok hd] at h
      have hfirst := hok d List.mem_cons_self s s₁ hs hd
      have hrest := ih (fun c hc => hok c (List.mem_cons_of_mem d hc))
        (fun c hc => herror c (List.mem_cons_of_mem d hc)) hfirst.keeps h
      refine (hfirst.weaken fun q hq => ⟨d, List.mem_cons_self, hq⟩).stops (hrest.weaken ?_)
      rintro q ⟨c, hc, hq⟩
      exact ⟨c, List.mem_cons_of_mem d hc, hq.of_settled hfirst.mono⟩

/-- A recursion that stops does so at a node that is exposed beneath the one it started from. -/
theorem Lawful.recurse_error (h : v.Lawful I size) (hr : r < size) (hs : I s)
    (herror : v.recurse h.wellFounded r s = .error fault s') : v.Stops I (v.Exposed s r) fault s s' := by
  induction r using h.wellFounded.induction generalizing s s' with
  | _ r ih =>
    by_cases hsettled : v.settled s r = true
    · rw [recurse_of_settled _ hsettled] at herror
      cases herror
    · have hopen : v.settled s r = false := by simpa using hsettled
      cases hds : v.dependencies r with
      | error e =>
        rw [recurse_of_error _ hopen hds] at herror
        cases herror
        exact .dependencies r (.refl hs) (.refl hopen) hopen hds
      | ok ds =>
        obtain rfl := before_of_ok hds
        rw [recurse_of_ok _ hopen hds] at herror
        have hlt : ∀ d ∈ (v.before r).reverse, d < size := fun d hd => h.lt_size r d (List.mem_reverse.mp hd)
        cases hloop : (v.before r).reverse.forM (v.recurse h.wellFounded) s with
        | error e s₁ =>
          rw [bind_of_error hloop] at herror
          cases herror
          refine (stops_forM (fun d hd s s' hs hok => (h.recurse_ok (hlt d hd) hs hok).1)
            (fun d hd s s' => ih d (List.mem_reverse.mp hd) (hlt d hd)) hs hloop).weaken ?_
          rintro q ⟨d, hd, hq⟩
          exact hq.head hopen (List.mem_reverse.mp hd)
        | ok u s₁ =>
          rw [bind_of_ok hloop] at herror
          obtain ⟨hbeneath, hopen₁, hall⟩ := h.recurse_before hopen hs hloop
          exact .settle r s₁ hbeneath (.refl hopen) hopen₁ hall herror

/-! ### The walk is the recursion -/

/-- The number of nodes of a set that are not settled. -/
def unsettledIn (v : Visit σ) (X : Finset Ref) (s : σ) : Nat := (X.filter fun q => v.settled s q = false).card

theorem unsettledIn_le (v : Visit σ) (X : Finset Ref) (s : σ) : v.unsettledIn X s ≤ X.card :=
  Finset.card_filter_le _ _

theorem unsettledIn_anti {X : Finset Ref} (h : ∀ q, v.settled s q = true → v.settled s' q = true) :
    v.unsettledIn X s' ≤ v.unsettledIn X s := by
  refine Finset.card_le_card fun q hq => ?_
  obtain ⟨hX, hopen⟩ := Finset.mem_filter.mp hq
  refine Finset.mem_filter.mpr ⟨hX, ?_⟩
  by_contra hs
  rw [h q (by simpa using hs)] at hopen
  cases hopen

theorem unsettledIn_of_open {X : Finset Ref} (hX : r ∈ X) (hr : v.settled s r = false) :
    v.unsettledIn X s = v.unsettledIn (X.erase r) s + 1 := by
  unfold unsettledIn
  rw [Finset.filter_erase, Finset.card_erase_add_one (Finset.mem_filter.mpr ⟨hX, hr⟩)]

theorem unsettledIn_of_settled {X : Finset Ref} (hr : v.settled s r = true) :
    v.unsettledIn X s = v.unsettledIn (X.erase r) s := by
  unfold unsettledIn
  rw [Finset.filter_erase, Finset.erase_eq_of_notMem]
  simp [hr]

/-- Carrying out the tasks is the computation, and opens no more nodes than there are in `X` to be settled; if it
returns, it has opened no more than were settled of them. -/
def Performs (v : Visit σ) (X : Finset Ref) (tasks : List Task) (x : EStateM Fault σ Unit) (s : σ) : Prop :=
  ∃ m ≤ v.unsettledIn X s, (∀ s', x s = .ok () s' → m + v.unsettledIn X s' ≤ v.unsettledIn X s) ∧
    ∀ fuel rest, v.run (fuel + m) (tasks ++ rest) s = (x >>= fun _ => v.run fuel rest) s

theorem performs_nil (X : Finset Ref) (s : σ) : v.Performs X [] (pure ()) s :=
  ⟨0, Nat.zero_le _, fun s' hs' => by cases hs'; omega, fun _ _ => rfl⟩

theorem Performs.append {X : Finset Ref} {tasks tasks' : List Task} {x y : EStateM Fault σ Unit}
    (h : v.Performs X tasks x s) (h' : ∀ s', x s = .ok () s' → v.Performs X tasks' y s') :
    v.Performs X (tasks ++ tasks') (x >>= fun _ => y) s := by
  obtain ⟨m, hle, hspent, hrun⟩ := h
  cases hx : x s with
  | error e s₁ =>
    refine ⟨m, hle, fun s' hs' => ?_, fun fuel rest => ?_⟩
    · rw [bind_of_error hx] at hs'
      cases hs'
    · rw [List.append_assoc, hrun, bind_of_error hx, bind_of_error (bind_of_error hx _)]
  | ok u s₁ =>
    obtain ⟨m', hle', hspent', hrun'⟩ := h' s₁ hx
    have hm := hspent s₁ hx
    refine ⟨m' + m, by omega, fun s' hs' => ?_, fun fuel rest => ?_⟩
    · rw [bind_of_ok hx] at hs'
      have hm' := hspent' s' hs'
      omega
    · rw [← Nat.add_assoc, List.append_assoc, hrun, bind_of_ok hx, hrun', bind_apply, bind_apply, bind_of_ok hx]

theorem performs_forM {X : Finset Ref} {nodes : List Ref} {f : Ref → EStateM Fault σ Unit}
    (hstep : ∀ d ∈ nodes, ∀ s, I s → v.Performs X [.enter d] (f d) s)
    (hkeep : ∀ d ∈ nodes, ∀ s s', I s → f d s = .ok () s' → I s') (hs : I s) :
    v.Performs X (nodes.map .enter) (nodes.forM f) s := by
  induction nodes generalizing s with
  | nil => exact performs_nil X s
  | cons d nodes ih =>
    refine (hstep d List.mem_cons_self s hs).append fun s' hd => ?_
    exact ih (fun c hc => hstep c (List.mem_cons_of_mem d hc)) (fun c hc => hkeep c (List.mem_cons_of_mem d hc))
      (hkeep d List.mem_cons_self s s' hs hd)

theorem run_enter_of_error (hr : v.settled s r = false) (hds : v.dependencies r = .error fault) (fuel : Nat)
    (rest : List Task) : v.run (fuel + 1) (.enter r :: rest) s = .error fault s := by
  rw [run, bind_of_ok (advance_enter hr rest)]
  simp only [hds]
  rfl

theorem run_leave_eq (hr : v.settled s r = false) (fuel : Nat) (rest : List Task) :
    v.run fuel (.leave r :: rest) s = (v.settle r >>= fun _ => v.run fuel rest) s := by
  cases hsettle : v.settle r s with
  | ok u s₁ => rw [run_leave hr hsettle, bind_of_ok hsettle]
  | error e s₁ =>
    rw [bind_of_error hsettle, run, bind_of_error]
    rw [advance_leave hr, bind_of_error hsettle]

/-- Opening a node is to deal with its dependencies among the other nodes, and to settle it. -/
theorem Lawful.performs_open (h : v.Lawful I size) {X : Finset Ref} (hX : r ∈ X) (hr : r < size) (hs : I s)
    (hopen : v.settled s r = false) (hds : v.dependencies r = .ok (v.before r))
    (hperforms : v.Performs (X.erase r) ((v.before r).reverse.map .enter)
      ((v.before r).reverse.forM (v.recurse h.wellFounded)) s) :
    v.Performs X [.enter r] (v.recurse h.wellFounded r) s := by
  obtain ⟨m, hle, hspent, hrun⟩ := hperforms
  have hcount := unsettledIn_of_open hX hopen
  have hrecurse := recurse_of_ok h.wellFounded hopen hds
  have hopening : ∀ fuel rest, v.run (fuel + (m + 1)) (.enter r :: rest) s =
      ((v.before r).reverse.forM (v.recurse h.wellFounded) >>= fun _ => v.run fuel (.leave r :: rest)) s := by
    intro fuel rest
    rw [← Nat.add_assoc, run_enter hopen hds, opening, ← List.map_reverse, hrun]
  cases hloop : (v.before r).reverse.forM (v.recurse h.wellFounded) s with
  | error e s₁ =>
    rw [bind_of_error hloop] at hrecurse
    refine ⟨m + 1, by omega, fun s' hs' => ?_, fun fuel rest => ?_⟩
    · rw [hrecurse] at hs'
      cases hs'
    · rw [bind_of_error hrecurse]
      exact (hopening fuel rest).trans (bind_of_error hloop _)
  | ok u s₁ =>
    rw [bind_of_ok hloop] at hrecurse
    obtain ⟨hbeneath, hopen₁, hall⟩ := h.recurse_before hopen hs hloop
    have hm := hspent s₁ hloop
    refine ⟨m + 1, by omega, fun s' hs' => ?_, fun fuel rest => ?_⟩
    · obtain ⟨-, hexact⟩ := h.settle r s₁ s' hr hbeneath.keeps hopen₁ hall (hrecurse.symm.trans hs')
      have hanti : v.unsettledIn (X.erase r) s' ≤ v.unsettledIn (X.erase r) s₁ :=
        unsettledIn_anti fun q hq => by simp [hexact, hq]
      rw [unsettledIn_of_settled (by simp [hexact] : v.settled s' r = true)]
      omega
    · refine (hopening fuel rest).trans ?_
      rw [bind_of_ok hloop, run_leave_eq hopen₁, bind_apply, bind_apply, hrecurse]

/-- Entering a node is the recursion, and no node is opened twice on the way. -/
theorem Lawful.performs_enter (h : v.Lawful I size) {X : Finset Ref} (hX : ∀ q, v.Reaches r q → q ∈ X)
    (hr : r < size) (hs : I s) : v.Performs X [.enter r] (v.recurse h.wellFounded r) s := by
  induction r using h.wellFounded.induction generalizing s X with
  | _ r ih =>
    by_cases hsettled : v.settled s r = true
    · have hrecurse := recurse_of_settled h.wellFounded hsettled
      refine ⟨0, Nat.zero_le _, fun s' hs' => ?_, fun fuel rest => ?_⟩
      · rw [hrecurse] at hs'
        cases hs'
        omega
      · rw [bind_of_ok hrecurse]
        exact run_of_settled hsettled fuel rest
    · have hopen : v.settled s r = false := by simpa using hsettled
      have hcount := unsettledIn_of_open (hX r .refl) hopen
      cases hds : v.dependencies r with
      | error e =>
        have hrecurse := recurse_of_error h.wellFounded hopen hds
        refine ⟨1, by omega, fun s' hs' => ?_, fun fuel rest => ?_⟩
        · rw [hrecurse] at hs'
          cases hs'
        · rw [bind_of_error hrecurse]
          exact run_enter_of_error hopen hds fuel rest
      | ok ds =>
        obtain rfl := before_of_ok hds
        refine h.performs_open (hX r .refl) hr hs hopen hds (performs_forM (fun d hd s => ?_) (fun d hd s s' => ?_) hs)
        · -- a dependency reaches nodes of `X` other than `r`
          have hd := List.mem_reverse.mp hd
          refine ih d hd (fun q hq => Finset.mem_erase.mpr ⟨?_, hX q (.head hd hq)⟩) (h.lt_size r d hd)
          rintro rfl
          exact not_reaches_of_mem_before h.wellFounded hd hq
        · exact fun hs hok => (h.recurse_ok (h.lt_size r d (List.mem_reverse.mp hd)) hs hok).1.keeps

/-- The walk is the recursion, with fuel for every node. -/
theorem Lawful.run_eq_recurse (h : v.Lawful I size) (hr : r < size) (hs : I s) :
    v.run size [.enter r] s = v.recurse h.wellFounded r s := by
  have hX : ∀ q, v.Reaches r q → q ∈ Finset.range size :=
    fun q hq => Finset.mem_range.mpr (h.lt_size_of_reaches hr hq)
  obtain ⟨m, hle, -, hrun⟩ := h.performs_enter hX hr hs
  have hfuel : size = size - m + m := by
    have hcard := v.unsettledIn_le (Finset.range size) s
    rw [Finset.card_range] at hcard
    omega
  have hwalk := hrun (size - m) []
  rw [← hfuel, List.append_nil] at hwalk
  rw [hwalk, bind_apply]
  cases v.recurse h.wellFounded r s with
  | ok u s' => exact run_nil _ s'
  | error e s' => rfl

/-- If a node that cannot be settled leaves the state alone, then a walk has only settled what was exposed, however it
ends. -/
theorem Lawful.advances_left (h : v.Lawful I size)
    (hsettle : ∀ q t fault t', v.settle q t = .error fault t' → t' = t) (hr : r < size) (hs : I s) :
    v.Advances I (v.Exposed s r) s (left (v.run size [.enter r] s)) := by
  rw [h.run_eq_recurse hr hs]
  cases hrun : v.recurse h.wellFounded r s with
  | ok u s' => exact (h.recurse_ok hr hs hrun).1
  | error fault s' =>
    cases h.recurse_error hr hs hrun with
    | dependencies q hadvances _ _ _ => exact hadvances
    | settle q t hadvances _ _ _ herror =>
      obtain rfl := hsettle q t fault s' herror
      exact hadvances

/-! ### Noting down what is settled -/

/-- The same walk, which notes down the nodes that it settles in order. -/
def logging (v : Visit σ) : Visit (σ × List Ref) where
  settled s := v.settled s.1
  dependencies := v.dependencies
  settle r s :=
    match v.settle r s.1 with
    | .ok _ s' => .ok () (s', s.2 ++ [r])
    | .error fault s' => .error fault (s', s.2)

/-- An outcome without the notes. -/
def unlogged {α : Type} : EStateM.Result Fault (σ × List Ref) α → EStateM.Result Fault σ α
  | .ok a t => .ok a t.1
  | .error fault t => .error fault t.1

theorem left_unlogged {α : Type} (x : EStateM.Result Fault (σ × List Ref) α) : left (unlogged x) = (left x).1 := by
  cases x <;> rfl

theorem unlogged_bind {α β : Type} {x : EStateM Fault (σ × List Ref) α} {x' : EStateM Fault σ α}
    {y : α → EStateM Fault (σ × List Ref) β} {y' : α → EStateM Fault σ β} {t : σ × List Ref}
    (hx : unlogged (x t) = x' t.1) (hy : ∀ a t, unlogged (y a t) = y' a t.1) :
    unlogged ((x >>= y) t) = (x' >>= y') t.1 := by
  rw [bind_apply, bind_apply, ← hx]
  cases x t with
  | ok a t' => exact hy a t'
  | error fault t' => rfl

theorem unlogged_settle (r : Ref) (t : σ × List Ref) : unlogged (v.logging.settle r t) = v.settle r t.1 := by
  show unlogged (match v.settle r t.1 with
    | .ok _ s' => .ok () (s', t.2 ++ [r])
    | .error fault s' => .error fault (s', t.2)) = _
  cases v.settle r t.1 <;> rfl

theorem of_logging_settle_ok {t t' : σ × List Ref} (h : v.logging.settle r t = .ok () t') :
    v.settle r t.1 = .ok () t'.1 ∧ t'.2 = t.2 ++ [r] := by
  simp only [logging] at h
  split at h <;> cases h
  exact ⟨‹_›, rfl⟩

theorem of_logging_settle_error {t t' : σ × List Ref} (h : v.logging.settle r t = .error fault t') :
    v.settle r t.1 = .error fault t'.1 ∧ t'.2 = t.2 := by
  simp only [logging] at h
  split at h <;> cases h
  exact ⟨‹_›, rfl⟩

theorem unlogged_advance (tasks : List Task) (t : σ × List Ref) :
    unlogged (v.logging.advance tasks t) = v.advance tasks t.1 := by
  induction tasks generalizing t with
  | nil => rfl
  | cons task rest ih =>
    rw [advance_cons, advance_cons]
    by_cases hsettled : v.settled t.1 task.ref = true
    · rw [if_pos hsettled, if_pos (show v.logging.settled t task.ref = true from hsettled)]
      exact ih t
    · rw [if_neg hsettled, if_neg (show ¬v.logging.settled t task.ref = true from hsettled)]
      cases task with
      | enter r => rfl
      | leave r => exact unlogged_bind (unlogged_settle r t) fun _ => ih

/-- Noting down changes nothing. -/
theorem unlogged_run (fuel : Nat) (tasks : List Task) (t : σ × List Ref) :
    unlogged (v.logging.run fuel tasks t) = v.run fuel tasks t.1 := by
  induction fuel generalizing tasks t with
  | zero =>
    unfold run
    refine unlogged_bind (unlogged_advance tasks t) fun opened t => ?_
    cases opened <;> rfl
  | succ fuel ih =>
    unfold run
    refine unlogged_bind (unlogged_advance tasks t) fun opened t => ?_
    cases opened with
    | none => rfl
    | some task =>
      show unlogged ((match v.dependencies task.1 with
        | .error fault => throw fault
        | .ok ds => v.logging.run fuel (opening task.1 ds task.2)) t) = _
      cases hds : v.dependencies task.1 with
      | error fault => simp only [hds]; rfl
      | ok ds =>
        simp only [hds]
        exact ih _ t

/-- The notes that were taken since `s` hold the nodes that were settled since then, each of them once. -/
structure Logs (v : Visit σ) (I : σ → Prop) (s : σ) (t : σ × List Ref) : Prop where
  keeps : I t.1
  mono : ∀ q, v.settled s q = true → v.settled t.1 q = true
  nodup : t.2.Nodup
  mem_iff : ∀ q, q ∈ t.2 ↔ v.settled s q = false ∧ v.settled t.1 q = true

theorem logs_nil (h : I s) : v.Logs I s (s, []) := by
  refine ⟨h, fun _ hq => hq, List.nodup_nil, fun q => ?_⟩
  simp

theorem Lawful.logging (h : v.Lawful I size) (s : σ) : v.logging.Lawful (v.Logs I s) size := by
  refine ⟨h.wellFounded, h.lt_size, ?_⟩
  rintro r ⟨s₁, log⟩ ⟨s₂, log'⟩ hr hlogs hopen hbefore hok
  obtain ⟨hsettle, rfl⟩ := of_logging_settle_ok hok
  have hopen : v.settled s₁ r = false := hopen
  obtain ⟨hI, hexact⟩ := h.settle r s₁ s₂ hr hlogs.keeps hopen hbefore hsettle
  have hr : v.settled s r = false := by
    by_contra hr
    rw [hlogs.mono r (by simpa using hr)] at hopen
    cases hopen
  have hnot : r ∉ log := fun hmem => by
    have hsettled := ((hlogs.mem_iff r).mp hmem).2
    rw [hopen] at hsettled
    cases hsettled
  refine ⟨⟨hI, fun q hq => ?_, ?_, fun q => ?_⟩, hexact⟩
  · simp [hexact, hlogs.mono q hq]
  · simpa [List.nodup_append, hlogs.nodup] using fun q hq => ne_of_mem_of_not_mem hq hnot
  · by_cases hqr : q = r
    · subst hqr
      simp [hexact, hr]
    · simpa [hexact, hqr] using hlogs.mem_iff q

/-- Each node was noted down after those that it depends on, unless they were settled before. -/
def After (v : Visit σ) (s : σ) (log : List Ref) : Prop :=
  ∀ earlier q later, log = earlier ++ q :: later → ∀ d ∈ v.before q, v.settled s d = true ∨ d ∈ earlier

theorem after_nil (v : Visit σ) (s : σ) : v.After s [] := fun earlier q later h => by simp at h

theorem After.concat {log : List Ref} (h : v.After s log)
    (hr : ∀ d ∈ v.before r, v.settled s d = true ∨ d ∈ log) : v.After s (log ++ [r]) := by
  intro earlier q later heq
  rcases List.eq_nil_or_concat' later with rfl | ⟨later, x, rfl⟩
  · obtain ⟨rfl, hq⟩ := List.append_inj' heq rfl
    cases hq
    exact hr
  · rw [← List.cons_append, ← List.append_assoc] at heq
    exact h earlier q later (List.append_inj' heq rfl).1

/-- A walk that notes down what it settles does so in the order of the dependencies, and the notes hold nothing but what
can be settled. -/
theorem Lawful.logging_after (h : v.Lawful I size) (s : σ) (hP : ∀ r t t', r < size → I t → v.settled t r = false →
    (∀ d ∈ v.before r, v.settled t d = true) → v.settle r t = .ok () t' → P r) :
    v.logging.Lawful (fun t => v.Logs I s t ∧ v.After s t.2 ∧ ∀ q ∈ t.2, P q) size := by
  have hlogging := h.logging s
  refine ⟨h.wellFounded, h.lt_size, ?_⟩
  rintro r ⟨s₁, log⟩ ⟨s₂, log'⟩ hr ⟨hlogs, hafter, hall⟩ hopen hbefore hok
  obtain ⟨hlogs', hexact⟩ := hlogging.settle r (s₁, log) (s₂, log') hr hlogs hopen hbefore hok
  obtain ⟨hsettle, rfl⟩ := of_logging_settle_ok hok
  refine ⟨⟨hlogs', hafter.concat fun d hd => ?_, fun q hq => ?_⟩, hexact⟩
  · -- what was not settled before was noted down
    by_cases hd' : v.settled s d = true
    · exact .inl hd'
    · exact .inr ((hlogs.mem_iff d).mpr ⟨by simpa using hd', hbefore d hd⟩)
  · rcases List.mem_append.mp hq with hq | hq
    · exact hall q hq
    · obtain rfl := List.mem_singleton.mp hq
      exact hP q s₁ s₂ hr hlogs.keeps hopen hbefore hsettle

end Visit

end SoftLogic
