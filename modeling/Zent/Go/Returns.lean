import Zent.Go.Outcome

/-!
# Computations that do not panic

`Returns x` says that `x` ends with a value or with an error value. What a computation has to be
given in order not to panic is read off its parts, from the last one to the first: a sequence
returns when its first part does and, with the value of the first, the second does.

* `Ends x P` — `x` ends normally and its value satisfies `P`; `Ends.bind` and `ends_foldlM` are the
  rules of sequence and of a loop with an invariant, `ends_take_iff` and `foldl_take_iff` those of a
  run whose states all satisfy `P`.
-/

namespace Go

open List Except

universe u v w

variable {ε : Type u} {α : Type v} {σ : Type w} {l : List α}

/-- The computation does not panic. -/
def Returns (x : Outcome ε α) : Prop := x ≠ crash

instance (x : Outcome ε α) : Decidable (Returns x) :=
  match x with
  | .ok _ => .isTrue nofun
  | .error (.error _) => .isTrue nofun
  | .error .panic => .isFalse fun h => h rfl

variable {x : Outcome ε α}

theorem not_returns_iff : ¬Returns x ↔ x = crash := not_not

@[simp] theorem returns_ok (a : α) : Returns (.ok a : Outcome ε α) := nofun

@[simp] theorem returns_pure (a : α) : Returns (pure a : Outcome ε α) := nofun

@[simp] theorem returns_fail (e : ε) : Returns (fail e : Outcome ε α) := nofun

@[simp] theorem not_returns_crash : ¬ Returns (crash : Outcome ε α) := fun h => h rfl

@[simp] theorem returns_failIf (c : Prop) [Decidable c] (e : ε) : Returns (failIf c e) := by
  rw [failIf]
  split
  · exact returns_fail e
  · exact returns_ok ()

/-- Error values of another type. -/
def mapFail {ε' : Type u} (f : ε → ε') : Outcome ε α → Outcome ε' α
  | .ok a => .ok a
  | .error (.error e) => fail (f e)
  | .error .panic => crash

theorem returns_mapFail {ε' : Type u} {f : ε → ε'} : Returns (mapFail f x) ↔ Returns x := by
  match x with
  | .ok a => simp [mapFail]
  | .error (.error e) => exact iff_of_true nofun nofun
  | .error .panic => exact iff_of_false (fun h => h rfl) fun h => h rfl

theorem returns_bind {β : Type v} {f : α → Outcome ε β} :
    Returns (x >>= f) ↔ Returns x ∧ ∀ a, x = .ok a → Returns (f a) := by
  match x with
  | .ok a => simp [ok_bind]
  | .error e => simp [Returns, error_bind, crash]

theorem returns_ite {c : Prop} [Decidable c] {y : Outcome ε α} :
    Returns (if c then x else y) ↔ (c → Returns x) ∧ (¬c → Returns y) := by
  split <;> simp_all

theorem returns_index {i : Nat} : Returns (index l i : Outcome ε α) ↔ i < l.length := by
  rw [index]
  split
  case h_1 a ha => simp [(List.getElem?_eq_some_iff.mp ha).1]
  case h_2 hnone => simp [List.getElem?_eq_none_iff.mp hnone]

theorem returns_slice {a b : Nat} :
    Returns (slice l a b : Outcome ε (List α)) ↔ a ≤ b ∧ b ≤ l.length := by
  rw [slice, returns_ite]
  simp

theorem returns_forM {f : α → Outcome ε PUnit} : ∀ {l : List α}, (∀ a ∈ l, Returns (f a)) →
    Returns (l.forM f)
  | [], _ => returns_pure _
  | a :: l, h => by
    exact returns_bind.mpr ⟨h a mem_cons_self, fun _ _ =>
      returns_forM fun b hb => h b (mem_cons_of_mem a hb)⟩

/-- A loop: the elements up to one that fails are reached. -/
theorem returns_foldlM {f : σ → α → Outcome ε σ} : ∀ {l : List α} {s : σ},
    Returns (l.foldlM f s) ↔
      ∀ done a rest s', l = done ++ a :: rest → done.foldlM f s = .ok s' → Returns (f s' a)
  | [], s => by simp
  | b :: l, s => by
    rw [foldlM_cons, returns_bind]
    constructor
    · rintro ⟨hfirst, hrest⟩ done a rest s' hsplit hdone
      cases done with
      | nil =>
        cases hsplit
        cases hdone
        exact hfirst
      | cons c done =>
        cases hsplit
        obtain ⟨t, ht, hdone⟩ := of_bind hdone
        exact returns_foldlM.mp (hrest t ht) done a rest s' rfl hdone
    · intro h
      refine ⟨h [] b l s rfl rfl, fun t ht => returns_foldlM.mpr ?_⟩
      intro done a rest s' hsplit hdone
      refine h (b :: done) a rest s' (by rw [hsplit, cons_append]) ?_
      rw [foldlM_cons, ht]
      exact hdone

/-! ## Normal ends -/

/-- The computation ends normally, with a value that satisfies `P`. -/
def Ends (x : Outcome ε α) (P : α → Prop) : Prop := ∃ a, x = .ok a ∧ P a

variable {P : α → Prop}

theorem ends_ok {a : α} (h : P a) : Ends (.ok a : Outcome ε α) P := ⟨a, rfl, h⟩

theorem ends_pure_iff {a : α} : Ends (pure a : Outcome ε α) P ↔ P a :=
  ⟨fun ⟨_, hx, h⟩ => ok.inj hx ▸ h, ends_ok⟩

instance [DecidablePred P] : Decidable (Ends x P) :=
  match x with
  | .ok a => decidable_of_iff (P a) ends_pure_iff.symm
  | .error _ => .isFalse nofun

instance existsOk [DecidablePred P] : Decidable (∃ a, x = .ok a ∧ P a) :=
  inferInstanceAs (Decidable (Ends x P))

theorem Ends.mono {Q : α → Prop} (h : Ends x P) (hPQ : ∀ a, P a → Q a) : Ends x Q := by
  obtain ⟨a, hx, ha⟩ := h
  exact ⟨a, hx, hPQ a ha⟩

theorem Ends.bind {β : Type v} {f : α → Outcome ε β} {Q : β → Prop} (h : Ends x P)
    (hf : ∀ a, P a → Ends (f a) Q) : Ends (x >>= f) Q := by
  obtain ⟨a, rfl, ha⟩ := h
  exact hf a ha

theorem ends_foldlM {f : σ → α → Outcome ε σ} {P : σ → Prop} {s : σ} (hinit : P s)
    (hstep : ∀ s a, a ∈ l → P s → Ends (f s a) P) : Ends (l.foldlM f s) P :=
  foldlM_progress (P := fun _ => P) hinit fun _ a _ s hl hs =>
    hstep s a (by rw [hl]; simp) hs

/-- What comes before a step of a run is a number of its first steps. -/
theorem exists_take {done rest : List α} {a : α} (h : l = done ++ a :: rest) :
    ∃ j, done = l.take j ∧ l[j]? = some a :=
  ⟨done.length, by rw [h, take_left], by simp [h]⟩

/-- **A property of every state of a run.** Where a step comes to a state with `P` exactly under the
condition `C`, a run stays in states with `P` exactly when every step meets the condition in the
state it is taken from. What the steps keep anyway is `Q`. -/
theorem ends_take_iff {f : σ → α → Outcome ε σ} {P Q : σ → Prop} {C : σ → α → Prop} :
    ∀ {l : List α} {s : σ}, (∀ s, ∀ a ∈ l, P s → Q s → (Ends (f s a) P ↔ C s a)) →
      (∀ s, ∀ a ∈ l, ∀ s', P s → Q s → f s a = .ok s' → Q s') → P s → Q s →
      ((∀ n ≤ l.length, Ends ((l.take n).foldlM f s) P) ↔
        ∀ done a rest s', l = done ++ a :: rest → done.foldlM f s = .ok s' → C s' a)
  | [], s, _, _, hP, _ => by
    refine iff_of_true (fun n _ => ?_) fun done a rest s' hl => ?_
    · rw [take_nil]
      exact ends_ok hP
    · exact absurd hl (by simp)
  | a :: l, s, hstep, hkeep, hP, hQ => by
    have hmem : a ∈ a :: l := mem_cons_self
    have htail : ∀ {s₁}, f s a = .ok s₁ → P s₁ →
        ((∀ n ≤ l.length, Ends ((l.take n).foldlM f s₁) P) ↔
          ∀ done b rest s', l = done ++ b :: rest → done.foldlM f s₁ = .ok s' → C s' b) :=
      fun hs₁ hP₁ => ends_take_iff (fun s b hb => hstep s b (mem_cons_of_mem a hb))
        (fun s b hb => hkeep s b (mem_cons_of_mem a hb)) hP₁ (hkeep s a hmem _ hP hQ hs₁)
    constructor
    · intro h done b rest s' hl hdone
      obtain ⟨t, ht, hPt⟩ := h 1 (by simp)
      obtain ⟨s₁, hs₁, hlast⟩ := of_bind ht
      cases hlast
      cases done with
      | nil =>
        cases hl
        cases hdone
        exact (hstep s a hmem hP hQ).mp ⟨_, hs₁, hPt⟩
      | cons c done =>
        cases hl
        rw [foldlM_cons, hs₁] at hdone
        refine (htail hs₁ hPt).mp (fun n hn => ?_) done b rest s' rfl hdone
        obtain ⟨t', ht', hPt'⟩ := h (n + 1) (by simpa using hn)
        rw [take_succ_cons, foldlM_cons, hs₁] at ht'
        exact ⟨t', ht', hPt'⟩
    · intro h n hn
      obtain ⟨s₁, hs₁, hP₁⟩ := (hstep s a hmem hP hQ).mpr (h [] a l s rfl rfl)
      cases n with
      | zero => exact ends_ok hP
      | succ n =>
        rw [take_succ_cons, foldlM_cons, hs₁]
        refine (htail hs₁ hP₁).mpr (fun done b rest s' hl hdone => ?_) n (by simpa using hn)
        refine h (a :: done) b rest s' (by rw [hl, cons_append]) ?_
        rw [foldlM_cons, hs₁]
        exact hdone

/-- The same for steps that always end. -/
theorem foldl_take_iff {f : σ → α → σ} {P Q : σ → Prop} {C : σ → α → Prop} {s : σ}
    (hstep : ∀ s, ∀ a ∈ l, P s → Q s → (P (f s a) ↔ C s a))
    (hkeep : ∀ s, ∀ a ∈ l, P s → Q s → Q (f s a)) (hP : P s) (hQ : Q s) :
    (∀ n ≤ l.length, P ((l.take n).foldl f s)) ↔
      ∀ done a rest, l = done ++ a :: rest → C (done.foldl f s) a := by
  have h := ends_take_iff (f := fun s a => (pure (f s a) : Outcome Empty σ)) (C := C)
    (fun s a ha hPs hQs => ends_pure_iff.trans (hstep s a ha hPs hQs))
    (fun s a ha s' hPs hQs hs => ok.inj hs ▸ hkeep s a ha hPs hQs) hP hQ
  simp only [foldlM_pure, ends_pure_iff] at h
  exact h.trans ⟨fun h done a rest hl => h done a rest _ hl rfl,
    fun h done a rest s' hl hs => ok.inj hs ▸ h done a rest hl⟩

end Go
