import SoftLogic.Netlist.Walk

/-!
# Computations on a state

How an `EStateM` computation goes, stated for its parts: a sequence succeeds when both halves do, and what
every part keeps, the whole keeps.  `Keeps I x` asks for the invariant also where `x` stops early.
-/

namespace SoftLogic.Effect

variable {ε ε' σ α β : Type}

/-- What a computation returned, if it did. -/
def answer : EStateM.Result ε σ α → Option α
  | .ok a _ => some a
  | .error _ _ => none

/-- The state that a computation left, wherever it stopped. -/
def left : EStateM.Result ε σ α → σ
  | .ok _ s => s
  | .error _ s => s

/-! ### Sequences -/

theorem bind_apply (x : EStateM ε σ α) (y : α → EStateM ε σ β) (s : σ) :
    (x >>= y) s = match x s with
      | .ok a s => y a s
      | .error e s => .error e s := by
  show EStateM.bind x y s = _
  unfold EStateM.bind
  cases x s <;> rfl

theorem get_bind (y : σ → EStateM ε σ β) (s : σ) : (get >>= y) s = y s s := rfl

theorem modifyGet_bind (f : σ → α × σ) (y : α → EStateM ε σ β) (s : σ) :
    (modifyGet f >>= y) s = y (f s).1 (f s).2 := rfl

theorem bind_of_ok {x : EStateM ε σ α} {a : α} {s s' : σ} (h : x s = .ok a s')
    (y : α → EStateM ε σ β) : (x >>= y) s = y a s' := by
  rw [bind_apply, h]

theorem bind_of_error {x : EStateM ε σ α} {e : ε} {s s' : σ} (h : x s = .error e s')
    (y : α → EStateM ε σ β) : (x >>= y) s = .error e s' := by
  rw [bind_apply, h]

theorem of_bind_ok {x : EStateM ε σ α} {y : α → EStateM ε σ β} {b : β} {s s' : σ}
    (h : (x >>= y) s = .ok b s') : ∃ a s₁, x s = .ok a s₁ ∧ y a s₁ = .ok b s' := by
  rw [bind_apply] at h
  match hx : x s with
  | .ok a s₁ => exact ⟨a, s₁, rfl, by rwa [hx] at h⟩
  | .error e s₁ =>
    rw [hx] at h
    cases h

theorem of_except_bind_ok {x : Except ε α} {y : α → Except ε β} {b : β} (h : (x >>= y) = .ok b) :
    ∃ a, x = .ok a ∧ y a = .ok b := by
  match x with
  | .ok a => exact ⟨a, rfl, h⟩
  | .error e => cases h

theorem of_except_bind_error {x : Except ε α} {y : α → Except ε β} {e : ε} (h : (x >>= y) = .error e) :
    x = .error e ∨ ∃ a, x = .ok a ∧ y a = .error e := by
  match x with
  | .ok a => exact .inr ⟨a, rfl, h⟩
  | .error e' =>
    cases h
    exact .inl rfl

theorem adaptExcept_apply (x : EStateM ε σ α) (f : ε → ε') (s : σ) :
    EStateM.adaptExcept f x s = match x s with
      | .ok a s => .ok a s
      | .error e s => .error (f e) s := by
  unfold EStateM.adaptExcept
  cases x s <;> rfl

theorem adaptExcept_of_ok {x : EStateM ε σ α} {f : ε → ε'} {a : α} {s s' : σ} (h : x s = .ok a s') :
    EStateM.adaptExcept f x s = .ok a s' := by
  rw [adaptExcept_apply, h]

theorem of_adaptExcept_ok {x : EStateM ε σ α} {f : ε → ε'} {a : α} {s s' : σ}
    (h : EStateM.adaptExcept f x s = .ok a s') : x s = .ok a s' := by
  rw [adaptExcept_apply] at h
  match hx : x s with
  | .ok b s₁ =>
    rw [hx] at h
    cases h
    rfl
  | .error e s₁ =>
    rw [hx] at h
    cases h

/-! ### Loops that succeed -/

/-- What one round of a loop makes of its invariant, the loop makes of it in the end. -/
theorem forM_range {n : Nat} {f : Nat → EStateM ε σ Unit} {P : Nat → σ → Prop}
    (hstep : ∀ k < n, ∀ s, P k s → ∃ s', f k s = .ok () s' ∧ P (k + 1) s') {s : σ} (h : P 0 s) :
    ∃ s', (List.range n).forM f s = .ok () s' ∧ P n s' := by
  induction n with
  | zero => exact ⟨s, rfl, h⟩
  | succ n ih =>
    obtain ⟨s₁, hrun, h₁⟩ := ih fun k hk => hstep k (Nat.lt_succ_of_lt hk)
    obtain ⟨s₂, hf, h₂⟩ := hstep n (Nat.lt_succ_self n) s₁ h₁
    refine ⟨s₂, ?_, h₂⟩
    show forM (List.range (n + 1)) f s = _
    rw [List.range_succ, List.forM_append]
    refine (bind_of_ok hrun _).trans ?_
    show (f n >>= fun _ => pure ()) s₁ = _
    rw [bind_of_ok hf]
    rfl

/-- A loop whose rounds all succeed collects their results. -/
theorem mapM_ok {l : List α} {f : α → EStateM ε σ β} {g : α → β} {P : σ → Prop}
    (hstep : ∀ a ∈ l, ∀ s, P s → ∃ s', f a s = .ok (g a) s' ∧ P s') {s : σ} (h : P s) :
    ∃ s', l.mapM f s = .ok (l.map g) s' ∧ P s' := by
  induction l generalizing s with
  | nil => exact ⟨s, rfl, h⟩
  | cons a l ih =>
    obtain ⟨s₁, ha, h₁⟩ := hstep a List.mem_cons_self s h
    obtain ⟨s₂, hl, h₂⟩ := ih (fun b hb => hstep b (List.mem_cons_of_mem a hb)) h₁
    refine ⟨s₂, ?_, h₂⟩
    rw [List.mapM_cons, bind_of_ok ha, bind_of_ok hl]
    rfl

/-- A loop whose rounds all return returns. -/
theorem mapM_returns {l : List α} {f : α → EStateM ε σ β} {P : σ → Prop}
    (hstep : ∀ a ∈ l, ∀ s, P s → ∃ b s', f a s = .ok b s' ∧ P s') {s : σ} (h : P s) :
    ∃ bs s', l.mapM f s = .ok bs s' ∧ P s' := by
  induction l generalizing s with
  | nil => exact ⟨[], s, rfl, h⟩
  | cons a l ih =>
    obtain ⟨b, s₁, ha, h₁⟩ := hstep a List.mem_cons_self s h
    obtain ⟨bs, s₂, hl, h₂⟩ := ih (fun c hc => hstep c (List.mem_cons_of_mem a hc)) h₁
    refine ⟨b :: bs, s₂, ?_, h₂⟩
    rw [List.mapM_cons, bind_of_ok ha, bind_of_ok hl]
    rfl

/-- What each round of a loop establishes for its item, and later rounds keep, holds of all items. -/
theorem forM_ok {l : List α} {f : α → EStateM ε σ Unit} {P : σ → Prop} {Q : α → σ → Prop}
    (hstep : ∀ a ∈ l, ∀ s, P s → ∃ s', f a s = .ok () s' ∧ P s' ∧ Q a s' ∧ ∀ b, Q b s → Q b s')
    {s : σ} (h : P s) :
    ∃ s', l.forM f s = .ok () s' ∧ P s' ∧ (∀ a ∈ l, Q a s') ∧ ∀ b, Q b s → Q b s' := by
  induction l generalizing s with
  | nil => exact ⟨s, rfl, h, fun a ha => absurd ha List.not_mem_nil, fun _ hb => hb⟩
  | cons a l ih =>
    obtain ⟨s₁, ha, h₁, hQ, hkeep⟩ := hstep a List.mem_cons_self s h
    obtain ⟨s₂, hl, h₂, hall, hkeep'⟩ := ih (fun b hb => hstep b (List.mem_cons_of_mem a hb)) h₁
    refine ⟨s₂, (bind_of_ok ha _).trans hl, h₂, fun b hb => ?_, fun b hb => hkeep' b (hkeep b hb)⟩
    rcases List.mem_cons.mp hb with rfl | hb
    · exact hkeep' _ hQ
    · exact hall b hb

/-- Loops whose rounds agree wherever the invariant holds agree, however they end. -/
theorem forM_congr {l : List α} {f g : α → EStateM ε σ Unit} {P : σ → Prop}
    (hagree : ∀ a ∈ l, ∀ s, P s → f a s = g a s) (hkeep : ∀ a ∈ l, ∀ s s', P s → g a s = .ok () s' → P s')
    {s : σ} (h : P s) : l.forM f s = l.forM g s := by
  induction l generalizing s with
  | nil => rfl
  | cons a l ih =>
    have hrest : ∀ {s}, P s → l.forM f s = l.forM g s :=
      ih (fun b hb => hagree b (List.mem_cons_of_mem a hb)) (fun b hb => hkeep b (List.mem_cons_of_mem a hb))
    have ha := hagree a List.mem_cons_self s h
    show (f a >>= fun _ => l.forM f) s = (g a >>= fun _ => l.forM g) s
    cases hg : g a s with
    | ok u s₁ =>
      rw [bind_of_ok (ha.trans hg), bind_of_ok hg]
      exact hrest (hkeep a List.mem_cons_self s s₁ h hg)
    | error e s₁ => rw [bind_of_error (ha.trans hg), bind_of_error hg]

/-- The same of a loop that accumulates the results of its rounds. -/
theorem foldlM_all {l : List α} {f : β → α → EStateM ε σ β} {g : β → α → β} {P : σ → Prop} {Q : α → σ → Prop}
    (hstep : ∀ a ∈ l, ∀ b s, P s → ∃ s', f b a s = .ok (g b a) s' ∧ P s' ∧ Q a s' ∧ ∀ c, Q c s → Q c s')
    (b : β) {s : σ} (h : P s) :
    ∃ s', l.foldlM f b s = .ok (l.foldl g b) s' ∧ P s' ∧ (∀ a ∈ l, Q a s') ∧ ∀ c, Q c s → Q c s' := by
  induction l generalizing b s with
  | nil => exact ⟨s, rfl, h, fun a ha => absurd ha List.not_mem_nil, fun _ hc => hc⟩
  | cons a l ih =>
    obtain ⟨s₁, ha, h₁, hQ, hkeep⟩ := hstep a List.mem_cons_self b s h
    obtain ⟨s₂, hl, h₂, hall, hkeep'⟩ := ih (fun c hc => hstep c (List.mem_cons_of_mem a hc)) (g b a) h₁
    refine ⟨s₂, ?_, h₂, fun c hc => ?_, fun c hc => hkeep' c (hkeep c hc)⟩
    · rw [List.foldlM_cons, bind_of_ok ha, hl]
      rfl
    · rcases List.mem_cons.mp hc with rfl | hc
      · exact hkeep' _ hQ
      · exact hall c hc

theorem foldlM_ok {l : List α} {f : β → α → EStateM ε σ β} {g : β → α → β} {P : σ → Prop}
    (hstep : ∀ a ∈ l, ∀ b s, P s → ∃ s', f b a s = .ok (g b a) s' ∧ P s') (b : β) {s : σ} (h : P s) :
    ∃ s', l.foldlM f b s = .ok (l.foldl g b) s' ∧ P s' := by
  obtain ⟨s', hok, hs', -⟩ := foldlM_all (Q := fun _ _ => True) (fun a ha b s hs => by
    obtain ⟨s', hok, hs'⟩ := hstep a ha b s hs
    exact ⟨s', hok, hs', trivial, fun _ _ => trivial⟩) b h
  exact ⟨s', hok, hs'⟩

/-- An accumulating loop whose rounds all return returns. -/
theorem foldlM_returns {l : List α} {f : β → α → EStateM ε σ β} {P : σ → Prop}
    (hstep : ∀ a ∈ l, ∀ b s, P s → ∃ c s', f b a s = .ok c s' ∧ P s') (b : β) {s : σ} (h : P s) :
    ∃ c s', l.foldlM f b s = .ok c s' ∧ P s' := by
  induction l generalizing b s with
  | nil => exact ⟨b, s, rfl, h⟩
  | cons a l ih =>
    obtain ⟨c, s₁, ha, h₁⟩ := hstep a List.mem_cons_self b s h
    obtain ⟨d, s₂, hl, h₂⟩ := ih (fun e he => hstep e (List.mem_cons_of_mem a he)) c h₁
    exact ⟨d, s₂, by rw [List.foldlM_cons, bind_of_ok ha, hl], h₂⟩

/-- A loop that succeeds has one result for each round. -/
theorem length_of_mapM_ok {l : List α} {f : α → EStateM ε σ β} {s s' : σ} {bs : List β}
    (hok : l.mapM f s = .ok bs s') : bs.length = l.length := by
  induction l generalizing s bs with
  | nil =>
    cases hok
    rfl
  | cons a l ih =>
    rw [List.mapM_cons] at hok
    obtain ⟨b, s₁, -, hok⟩ := of_bind_ok hok
    obtain ⟨bs', s₂, hl, hok⟩ := of_bind_ok hok
    cases hok
    rw [List.length_cons, List.length_cons, ih hl]

/-- What each round of a loop passes on, the loop passes on, if it succeeds. -/
theorem of_mapM_ok {l : List α} {f : α → EStateM ε σ β} {J : σ → Prop}
    (hstep : ∀ a ∈ l, ∀ s b s', J s → f a s = .ok b s' → J s') {s s' : σ} {bs : List β} (h : J s)
    (hok : l.mapM f s = .ok bs s') : J s' := by
  induction l generalizing s bs with
  | nil =>
    cases hok
    exact h
  | cons a l ih =>
    rw [List.mapM_cons] at hok
    obtain ⟨b, s₁, ha, hok⟩ := of_bind_ok hok
    obtain ⟨_, s₂, hl, hok⟩ := of_bind_ok hok
    cases hok
    exact ih (fun c hc => hstep c (List.mem_cons_of_mem a hc)) (hstep a List.mem_cons_self s b s₁ h ha) hl

/-! ### Runs with a known result -/

/-- From every state as `P` says the computation returns `a`, and leaves a state as `Q` says. -/
def Attains (P : σ → Prop) (x : EStateM ε σ α) (a : α) (Q : σ → Prop) : Prop :=
  ∀ s, P s → ∃ s', x s = .ok a s' ∧ Q s'

theorem attains_pure {P : σ → Prop} (a : α) : Attains P (pure a : EStateM ε σ α) a P := fun s hs => ⟨s, rfl, hs⟩

theorem attains_modify {f : σ → σ} {P Q : σ → Prop} (h : ∀ s, P s → Q (f s)) :
    Attains P (modify f : EStateM ε σ Unit) () Q := fun s hs => ⟨f s, rfl, h s hs⟩

theorem Attains.bind {x : EStateM ε σ α} {y : α → EStateM ε σ β} {a : α} {b : β} {P Q R : σ → Prop}
    (hx : Attains P x a Q) (hy : Attains Q (y a) b R) : Attains P (x >>= y) b R := by
  intro s hs
  obtain ⟨s₁, hx, hs₁⟩ := hx s hs
  obtain ⟨s₂, hy, hs₂⟩ := hy s₁ hs₁
  exact ⟨s₂, (bind_of_ok hx y).trans hy, hs₂⟩

theorem Attains.imp {x : EStateM ε σ α} {a : α} {P Q R : σ → Prop} (h : Attains P x a Q) (hR : ∀ s, Q s → R s) :
    Attains P x a R := by
  intro s hs
  obtain ⟨s', hx, hs'⟩ := h s hs
  exact ⟨s', hx, hR s' hs'⟩

/-! ### Invariants -/

/-- What holds before the computation holds afterwards, even if it stops early. -/
def Keeps (I : σ → Prop) (x : EStateM ε σ α) : Prop :=
  ∀ s, I s → match x s with
    | .ok _ s' => I s'
    | .error _ s' => I s'

variable {I : σ → Prop} {x : EStateM ε σ α}

theorem Keeps.ok (h : Keeps I x) {a : α} {s s' : σ} (hs : I s) (hx : x s = .ok a s') : I s' := by
  have := h s hs
  rwa [hx] at this

theorem Keeps.error (h : Keeps I x) {e : ε} {s s' : σ} (hs : I s) (hx : x s = .error e s') : I s' := by
  have := h s hs
  rwa [hx] at this

theorem Keeps.left (h : Keeps I x) {s : σ} (hs : I s) : I (left (x s)) := by
  have := h s hs
  cases hx : x s <;> rwa [hx] at this

/-- Where a computation returns and passes the invariant on, it keeps it. -/
theorem keeps_of_returns (h : ∀ s, I s → ∃ a s', x s = .ok a s' ∧ I s') : Keeps I x := by
  intro s hs
  obtain ⟨a, s', hok, hs'⟩ := h s hs
  rw [hok]
  exact hs'

theorem keeps_pure (a : α) : Keeps I (pure a : EStateM ε σ α) := fun _ h => h

theorem keeps_throw (e : ε) : Keeps I (throw e : EStateM ε σ α) := fun _ h => h

theorem Keeps.bind {y : α → EStateM ε σ β} (hx : Keeps I x) (hy : ∀ a, Keeps I (y a)) :
    Keeps I (x >>= y) := by
  intro s hs
  rw [bind_apply]
  match hl : x s with
  | .ok a s' => exact hy a s' (hx.ok hs hl)
  | .error e s' => exact hx.error hs hl

theorem Keeps.adaptExcept (hx : Keeps I x) (f : ε → ε') : Keeps I (EStateM.adaptExcept f x) := by
  intro s hs
  rw [adaptExcept_apply]
  match hl : x s with
  | .ok a s' => exact hx.ok hs hl
  | .error e s' => exact hx.error hs hl

theorem keeps_forM {l : List α} {f : α → EStateM ε σ Unit} (h : ∀ a ∈ l, Keeps I (f a)) :
    Keeps I (l.forM f) := by
  induction l with
  | nil => exact keeps_pure ()
  | cons a l ih =>
    exact (h a List.mem_cons_self).bind fun _ => ih fun b hb => h b (List.mem_cons_of_mem a hb)

theorem keeps_mapM {l : List α} {f : α → EStateM ε σ β} (h : ∀ a ∈ l, Keeps I (f a)) :
    Keeps I (l.mapM f) := by
  induction l with
  | nil => exact keeps_pure []
  | cons a l ih =>
    rw [List.mapM_cons]
    refine (h a List.mem_cons_self).bind fun b => ?_
    exact (ih fun c hc => h c (List.mem_cons_of_mem a hc)).bind fun _ => keeps_pure _

theorem keeps_foldlM {l : List α} {f : β → α → EStateM ε σ β} (h : ∀ a ∈ l, ∀ b, Keeps I (f b a)) (b : β) :
    Keeps I (l.foldlM f b) := by
  induction l generalizing b with
  | nil => exact keeps_pure b
  | cons a l ih =>
    rw [List.foldlM_cons]
    exact (h a List.mem_cons_self b).bind fun c => ih (fun d hd => h d (List.mem_cons_of_mem a hd)) c

/-- What holds before the computation holds afterwards, even if it stops early, and what it returns is as `Q` says. -/
structure Yields (I : σ → Prop) (Q : α → Prop) (x : EStateM ε σ α) : Prop where
  keeps : Keeps I x
  returned : ∀ s a s', I s → x s = .ok a s' → Q a

variable {Q : α → Prop} {P : β → Prop}

theorem yields_pure {a : α} (h : Q a) : Yields I Q (pure a : EStateM ε σ α) := by
  refine ⟨keeps_pure a, fun s b s' _ hok => ?_⟩
  cases hok
  exact h

theorem yields_throw (e : ε) : Yields I Q (throw e : EStateM ε σ α) := ⟨keeps_throw e, nofun⟩

theorem Yields.bind {y : α → EStateM ε σ β} (hx : Yields I Q x) (hy : ∀ a, Q a → Yields I P (y a)) :
    Yields I P (x >>= y) := by
  constructor
  · intro s hs
    rw [bind_apply]
    match hl : x s with
    | .ok a s' => exact (hy a (hx.returned s a s' hs hl)).keeps s' (hx.keeps.ok hs hl)
    | .error e s' => exact hx.keeps.error hs hl
  · intro s b s' hs hok
    obtain ⟨a, s₁, ha, hb⟩ := of_bind_ok hok
    exact (hy a (hx.returned s a s₁ hs ha)).returned s₁ b s' (hx.keeps.ok hs ha) hb

/-- What each round of a loop passes on, the loop returns. -/
theorem yields_foldlM {l : List α} {f : β → α → EStateM ε σ β} (h : ∀ a ∈ l, ∀ b, P b → Yields I P (f b a)) {b : β}
    (hb : P b) : Yields I P (l.foldlM f b) := by
  induction l generalizing b with
  | nil => exact yields_pure hb
  | cons a l ih =>
    rw [List.foldlM_cons]
    exact (h a List.mem_cons_self b hb).bind fun c hc => ih (fun d hd => h d (List.mem_cons_of_mem a hd)) hc

/-! ### Runs on two kinds of states -/

/-- What a computation came to, without the state. -/
def outcome : EStateM.Result ε σ α → Except ε α
  | .ok a _ => .ok a
  | .error e _ => .error e

variable {τ : Type} {φ : σ → τ}

/-- The result with the state in another form. -/
def carry (φ : σ → τ) : EStateM.Result ε σ α → EStateM.Result ε τ α
  | .ok a s => .ok a (φ s)
  | .error e s => .error e (φ s)

theorem outcome_carry (r : EStateM.Result ε σ α) : outcome (carry φ r) = outcome r := by
  cases r <;> rfl

/-- What comes after a computation and does not change its value does not matter to the outcome. -/
theorem outcome_bind_of_returns {x : EStateM ε σ α} {y : α → EStateM ε σ β} {f : α → β}
    (hy : ∀ a s, ∃ s', y a s = .ok (f a) s') (s : σ) : outcome ((x >>= y) s) = (outcome (x s)).map f := by
  rw [bind_apply]
  match x s with
  | .ok a s₁ =>
    obtain ⟨s', hok⟩ := hy a s₁
    simp only [hok]
    rfl
  | .error e s₁ => rfl

/-- On states in another form, the second computation does what the first one does and keeps `I` by. -/
structure Lifts (φ : σ → τ) (I : σ → Prop) (x : EStateM ε σ α) (y : EStateM ε τ α) : Prop where
  keeps : Keeps I x
  apply : ∀ s, I s → y (φ s) = carry φ (x s)

theorem lifts_pure (a : α) : Lifts φ I (pure a : EStateM ε σ α) (pure a) := ⟨keeps_pure a, fun _ _ => rfl⟩

theorem lifts_throw (e : ε) : Lifts φ I (throw e : EStateM ε σ α) (throw e) := ⟨keeps_throw e, fun _ _ => rfl⟩

/-- It is enough to know from each state what the two computations amount to. -/
theorem lifts_of_eq {y : EStateM ε τ α} (h : ∀ s, I s → ∃ x' y', Lifts φ I x' y' ∧ x s = x' s ∧ y (φ s) = y' (φ s)) :
    Lifts φ I x y := by
  constructor
  · intro s hs
    obtain ⟨x', y', hlifts, hx, -⟩ := h s hs
    rw [hx]
    exact hlifts.keeps s hs
  · intro s hs
    obtain ⟨x', y', hlifts, hx, hy⟩ := h s hs
    rw [hx, hy]
    exact hlifts.apply s hs

theorem Lifts.bind {y : EStateM ε τ α} {f : α → EStateM ε σ β} {g : α → EStateM ε τ β} (hx : Lifts φ I x y)
    (hf : ∀ a, Lifts φ I (f a) (g a)) : Lifts φ I (x >>= f) (y >>= g) := by
  refine ⟨hx.keeps.bind fun a => (hf a).keeps, fun s hs => ?_⟩
  rw [bind_apply, bind_apply, hx.apply s hs]
  match hl : x s with
  | .ok a s' => exact (hf a).apply s' (hx.keeps.ok hs hl)
  | .error e s' => rfl

theorem Lifts.adaptExcept {y : EStateM ε τ α} (hx : Lifts φ I x y) (f : ε → ε') :
    Lifts φ I (EStateM.adaptExcept f x) (EStateM.adaptExcept f y) := by
  refine ⟨hx.keeps.adaptExcept f, fun s hs => ?_⟩
  rw [adaptExcept_apply, adaptExcept_apply, hx.apply s hs]
  cases x s <;> rfl

theorem lifts_forM {l : List α} {f : α → EStateM ε σ Unit} {g : α → EStateM ε τ Unit}
    (h : ∀ a ∈ l, Lifts φ I (f a) (g a)) : Lifts φ I (l.forM f) (l.forM g) := by
  induction l with
  | nil => exact lifts_pure ()
  | cons a l ih => exact (h a List.mem_cons_self).bind fun _ => ih fun b hb => h b (List.mem_cons_of_mem a hb)

theorem lifts_mapM {l : List α} {f : α → EStateM ε σ β} {g : α → EStateM ε τ β}
    (h : ∀ a ∈ l, Lifts φ I (f a) (g a)) : Lifts φ I (l.mapM f) (l.mapM g) := by
  induction l with
  | nil => exact lifts_pure []
  | cons a l ih =>
    rw [List.mapM_cons, List.mapM_cons]
    refine (h a List.mem_cons_self).bind fun b => ?_
    exact (ih fun c hc => h c (List.mem_cons_of_mem a hc)).bind fun _ => lifts_pure _

theorem lifts_foldlM {l : List α} {f : β → α → EStateM ε σ β} {g : β → α → EStateM ε τ β}
    (h : ∀ a ∈ l, ∀ b, Lifts φ I (f b a) (g b a)) (b : β) : Lifts φ I (l.foldlM f b) (l.foldlM g b) := by
  induction l generalizing b with
  | nil => exact lifts_pure b
  | cons a l ih =>
    rw [List.foldlM_cons, List.foldlM_cons]
    exact (h a List.mem_cons_self b).bind fun c => ih (fun d hd => h d (List.mem_cons_of_mem a hd)) c

/-! ### Errors -/

/-- Wherever the computation stops early, the error is as `E` says. -/
def Raises (E : ε → Prop) (x : EStateM ε σ α) : Prop := ∀ s e s', x s = .error e s' → E e

variable {E : ε → Prop}

/-- A computation that always returns raises nothing. -/
theorem raises_of_returns (h : ∀ s, ∃ a s', x s = .ok a s') : Raises E x := by
  intro s e s' herror
  obtain ⟨a, s₁, hok⟩ := h s
  cases hok.symm.trans herror

theorem raises_pure (a : α) : Raises E (pure a : EStateM ε σ α) := nofun

theorem raises_throw {e : ε} (h : E e) : Raises E (throw e : EStateM ε σ α) := by
  intro s e' s' herror
  cases herror
  exact h

theorem Raises.bind {y : α → EStateM ε σ β} (hx : Raises E x) (hy : ∀ a, Raises E (y a)) : Raises E (x >>= y) := by
  intro s e s' herror
  rw [bind_apply] at herror
  match hl : x s with
  | .ok a s₁ =>
    rw [hl] at herror
    exact hy a s₁ e s' herror
  | .error e₁ s₁ =>
    rw [hl] at herror
    cases herror
    exact hx s _ _ hl

/-- A computation that looks at the state first is one for each state. -/
theorem raises_get_bind {y : σ → EStateM ε σ β} (hy : ∀ s, Raises E (y s)) : Raises E (get >>= y) :=
  fun s => hy s s

theorem Raises.adaptExcept {f : ε' → ε} {x : EStateM ε' σ α} (hx : Raises (fun e => E (f e)) x) :
    Raises E (EStateM.adaptExcept f x) := by
  intro s e s' herror
  rw [adaptExcept_apply] at herror
  match hl : x s with
  | .ok a s₁ =>
    rw [hl] at herror
    cases herror
  | .error e₁ s₁ =>
    rw [hl] at herror
    cases herror
    exact hx s _ _ hl

theorem raises_mapM {l : List α} {f : α → EStateM ε σ β} (h : ∀ a ∈ l, Raises E (f a)) : Raises E (l.mapM f) := by
  induction l with
  | nil => exact raises_pure []
  | cons a l ih =>
    rw [List.mapM_cons]
    refine (h a List.mem_cons_self).bind fun b => ?_
    exact (ih fun c hc => h c (List.mem_cons_of_mem a hc)).bind fun _ => raises_pure _

theorem raises_foldlM {l : List α} {f : β → α → EStateM ε σ β} (h : ∀ a ∈ l, ∀ b, Raises E (f b a)) (b : β) :
    Raises E (l.foldlM f b) := by
  induction l generalizing b with
  | nil => exact raises_pure b
  | cons a l ih =>
    rw [List.foldlM_cons]
    exact (h a List.mem_cons_self b).bind fun c => ih (fun d hd => h d (List.mem_cons_of_mem a hd)) c

/-- An accumulating loop that stops early stops in one of its rounds. -/
theorem of_foldlM_error {l : List α} {f : β → α → Except ε β} {b : β} {e : ε} (h : l.foldlM f b = .error e) :
    ∃ a ∈ l, ∃ c, f c a = .error e := by
  induction l generalizing b with
  | nil => cases h
  | cons a l ih =>
    rw [List.foldlM_cons] at h
    match ha : f b a with
    | .error e' =>
      rw [ha] at h
      cases h
      exact ⟨a, List.mem_cons_self, b, ha⟩
    | .ok c =>
      rw [ha] at h
      obtain ⟨a', ha', hround⟩ := ih h
      exact ⟨a', List.mem_cons_of_mem a ha', hround⟩

end SoftLogic.Effect
