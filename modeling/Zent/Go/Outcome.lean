import Mathlib.Data.List.Basic
import Mathlib.Data.List.Forall2

/-!
# Fallible computations

A Go function that can fail either returns an `error` value or panics (an index
out of range, a nil dereference, a failed type assertion). Both end the caller's
success path, so both are exceptions of one monad; they stay apart as the two
constructors of `Fault` because a statement about panics has to tell them from
an orderly error.

* `Outcome ε α` — a value, an error in `ε`, or a panic.
* `foldlM_induction` — the invariant rule for a loop that may fail: what one
  successful iteration preserves holds after every successful run. In
  `foldlM_induction_run` the step may use what is known of the run so far.
-/

namespace Go

open List Except

universe u v w

/-- Why a computation stopped. -/
inductive Fault (ε : Type u) : Type u where
  /-- it returned an error value -/
  | error : ε → Fault ε
  /-- it panicked -/
  | panic : Fault ε
  deriving DecidableEq, Repr

/-- A computation that returns a value, returns an error, or panics. -/
abbrev Outcome (ε : Type u) (α : Type v) : Type (max u v) := Except (Fault ε) α

variable {ε : Type u} {α : Type v} {σ : Type w} {β : Type v} {f : α → Except ε β} {s t : σ}
  {P : List α → σ → Prop}

/-- Return an error value. -/
def fail (e : ε) : Outcome ε α := .error (.error e)

/-- Stop with a run-time panic. -/
def crash : Outcome ε α := .error .panic

/-- Element access `l[i]`. -/
def index (l : List α) (i : Nat) : Outcome ε α :=
  match l[i]? with
  | some a => .ok a
  | none => crash

/-- The slice expression `l[a:b]`, for a slice whose capacity is its length. -/
def slice (l : List α) (a b : Nat) : Outcome ε (List α) :=
  if a ≤ b ∧ b ≤ l.length then .ok ((l.drop a).take (b - a)) else crash

/-- The guard `if c { return e }`. -/
def failIf (c : Prop) [Decidable c] (e : ε) : Outcome ε Unit := if c then fail e else .ok ()

/-- The same guard for a computation that cannot panic. -/
def throwIf (c : Prop) [Decidable c] (e : ε) : Except ε Unit := if c then .error e else .ok ()

/-- Whether a computation returned normally. -/
def succeeds (x : Outcome ε α) : Bool :=
  match x with
  | .ok _ => true
  | .error _ => false

theorem succeeds_iff {x : Outcome ε α} : succeeds x = true ↔ ∃ a, x = .ok a := by
  cases x with
  | ok a => simp [succeeds]
  | error e => simp [succeeds]

variable {x : Except ε α} {a : α}

theorem toOption_eq_some : x.toOption = some a ↔ x = .ok a := by
  cases x with
  | ok b => simp [Except.toOption]
  | error e => simp [Except.toOption]

theorem bind_eq_ok {b : β} : (x >>= f) = .ok b ↔ ∃ a, x = .ok a ∧ f a = .ok b := by
  cases x with
  | ok a => simp [bind, Except.bind]
  | error e => simp [bind, Except.bind]

/-- A computation that goes through has gone through its first step. -/
theorem of_bind {b : β} (h : (x >>= f) = .ok b) : ∃ a, x = .ok a ∧ f a = .ok b :=
  bind_eq_ok.mp h

variable {e : ε}

theorem error_bind : (error e >>= f) = .error e := by simp [bind, Except.bind]

theorem ok_bind : (ok a >>= f) = f a := rfl

theorem bind_eq_error : (x >>= f) = .error e ↔ x = .error e ∨ ∃ a, x = .ok a ∧ f a = .error e := by
  cases x with
  | ok a => simp [bind, Except.bind]
  | error e => simp [bind, Except.bind]

theorem mapError_eq_ok {ε' : Type u} {f : ε → ε'} : x.mapError f = .ok a ↔ x = .ok a := by
  cases x with
  | ok a => simp [Except.mapError]
  | error e => simp [Except.mapError]

theorem mapError_eq_error {ε' : Type u} {f : ε → ε'} {e' : ε'} :
    x.mapError f = .error e' ↔ ∃ e, x = .error e ∧ f e = e' := by
  cases x with
  | ok a => simp [Except.mapError]
  | error e => simp [Except.mapError]

variable {c : Prop} {u : Unit}

theorem failIf_eq_ok [Decidable c] : failIf c e = .ok u ↔ ¬c := by
  by_cases h : c
  · simp [failIf, fail, h]
  · simp [failIf, h]

theorem throwIf_eq_ok [Decidable c] : throwIf c e = .ok u ↔ ¬c := by
  by_cases h : c
  · simp [throwIf, h]
  · simp [throwIf, h]

theorem throwIf_eq_error [Decidable c] {e' : ε} : throwIf c e = .error e' ↔ c ∧ e = e' := by
  by_cases h : c
  · simp [throwIf, h]
  · simp [throwIf, h]

variable {l : List α}

theorem index_eq_ok {i : Nat} : index (ε := ε) l i = .ok a ↔ l[i]? = some a := by
  rw [index]
  split
  case h_1 b hb => rw [hb, ok.injEq, Option.some_inj]
  case h_2 hnone => simp [hnone, crash]

/-- `l[1:]` -/
theorem slice_one (h : 0 < l.length) : slice (ε := ε) l 1 l.length = .ok l.tail := by
  rw [slice, if_pos ⟨h, Nat.le_refl _⟩, drop_one, ← length_tail, take_length]

/-- `l[:k]` -/
theorem slice_zero {k : Nat} (h : k ≤ l.length) : slice (ε := ε) l 0 k = .ok (l.take k) := by
  rw [slice, if_pos ⟨Nat.zero_le k, h⟩, drop_zero, Nat.sub_zero]

/-- A loop of guards is passed exactly when each is. -/
theorem forM_eq_ok {f : α → Except ε Unit} : l.forM f = .ok u ↔ ∀ x ∈ l, f x = .ok () := by
  induction l with
  | nil => simp [pure, Except.pure]
  | cons x rest ih =>
    have hcons : (x :: rest).forM f = (f x >>= fun _ => rest.forM f) := rfl
    rw [hcons, bind_eq_ok, forall_mem_cons, ← ih]
    constructor
    · rintro ⟨_, hx, hrest⟩
      exact ⟨hx, hrest⟩
    · rintro ⟨hx, hrest⟩
      exact ⟨(), hx, hrest⟩

/-- A loop that collects results succeeds exactly when each step does. -/
theorem mapM_eq_ok {r : List β} : l.mapM f = .ok r ↔ List.Forall₂ (fun a b => f a = .ok b) l r := by
  induction l generalizing r with
  | nil =>
    rw [mapM_nil, forall₂_nil_left_iff]
    exact ⟨fun h => (ok.inj h).symm, fun h => h ▸ rfl⟩
  | cons a rest ih =>
    rw [mapM_cons, bind_eq_ok, forall₂_cons_left_iff]
    constructor
    · rintro ⟨b, hb, h⟩
      obtain ⟨bs, hbs, h⟩ := of_bind h
      exact ⟨b, bs, hb, ih.mp hbs, (ok.inj h).symm⟩
    · rintro ⟨b, bs, hb, hbs, rfl⟩
      exact ⟨b, hb, bind_eq_ok.mpr ⟨bs, ih.mpr hbs, rfl⟩⟩

theorem ok_of_mapM :
    ∀ {l : List α} {r : List β}, l.mapM f = .ok r → ∀ a ∈ l, ∃ b, f a = .ok b
  | _ :: _, _, h, a, ha => by
    obtain ⟨b, bs, hb, hbs, -⟩ := forall₂_cons_left_iff.mp (mapM_eq_ok.mp h)
    rcases mem_cons.mp ha with rfl | ha
    · exact ⟨b, hb⟩
    · exact ok_of_mapM (mapM_eq_ok.mpr hbs) a ha

theorem mem_of_mapM :
    ∀ {l : List α} {r : List β}, l.mapM f = .ok r → ∀ b ∈ r, ∃ a ∈ l, f a = .ok b
  | a :: rest, _ :: _, h, b, hb => by
    obtain ⟨ha, hrest⟩ := forall₂_cons.mp (mapM_eq_ok.mp h)
    rcases mem_cons.mp hb with rfl | hb
    · exact ⟨a, mem_cons_self, ha⟩
    · obtain ⟨c, hc, hcb⟩ := mem_of_mapM (mapM_eq_ok.mpr hrest) b hb
      exact ⟨c, mem_cons_of_mem a hc, hcb⟩
  | [], _ :: _, h, _, _ => by cases mapM_eq_ok.mp h
  | _, [], _, _, hb => by cases hb

theorem mapM_ok_of_forall :
    ∀ {l : List α}, (∀ a ∈ l, ∃ b, f a = .ok b) → ∃ r, l.mapM f = .ok r
  | [], _ => ⟨[], rfl⟩
  | a :: rest, h => by
    obtain ⟨b, hb⟩ := h a mem_cons_self
    obtain ⟨bs, hbs⟩ := mapM_ok_of_forall fun c hc => h c (mem_cons_of_mem a hc)
    exact ⟨b :: bs, mapM_eq_ok.mpr (.cons hb (mapM_eq_ok.mp hbs))⟩

variable {f : σ → α → Except ε σ}

/-- A loop over a split list is the loop over the first part, followed by the second. -/
theorem foldlM_append_eq_ok {l' : List α} :
    (l ++ l').foldlM f s = .ok t ↔ ∃ u, l.foldlM f s = .ok u ∧ l'.foldlM f u = .ok t := by
  rw [foldlM_append, bind_eq_ok]

/-- **Invariant rule for fallible loops, along one run.** `P` relates the part of the list that
has been consumed to the loop state. If it holds before the first iteration and every iteration
of this run extends it by one element, it holds of the whole list when the loop ends normally. -/
theorem foldlM_induction_run (hinit : P [] s)
    (hstep : ∀ done x rest u u', l = done ++ x :: rest → done.foldlM f s = .ok u → P done u →
      f u x = .ok u' → P (done ++ [x]) u') (hrun : l.foldlM f s = .ok t) : P l t := by
  -- the part consumed so far moves from `rest` to `done`
  have hgen : ∀ rest done u, l = done ++ rest → done.foldlM f s = .ok u → P done u →
      rest.foldlM f u = .ok t → P l t := by
    intro rest
    induction rest with
    | nil =>
      intro done u hl _ hP hend
      cases hend
      simpa [hl] using hP
    | cons x rest ih =>
      intro done u hl hdone hP hrest
      rw [foldlM_cons, bind_eq_ok] at hrest
      obtain ⟨u', hx, hrest⟩ := hrest
      have hdone' : (done ++ [x]).foldlM f s = .ok u' := by
        rw [foldlM_append_eq_ok]
        exact ⟨u, hdone, by rw [foldlM_cons, hx]; rfl⟩
      exact ih (done ++ [x]) u' (by simpa using hl) hdone' (hstep done x rest u u' hl hdone hP hx)
        hrest
  exact hgen l [] s rfl rfl hinit hrun

/-- **Invariant rule for fallible loops**, when every successful iteration preserves `P`. -/
theorem foldlM_induction (hinit : P [] s)
    (hstep : ∀ done x u u', P done u → f u x = .ok u' → P (done ++ [x]) u')
    (hrun : l.foldlM f s = .ok t) : P l t :=
  foldlM_induction_run hinit (fun done x _ u u' _ _ hP hx => hstep done x u u' hP hx) hrun

/-- **Progress rule for fallible loops.** If every iteration succeeds where `P` holds, and extends
it, the loop ends normally. -/
theorem foldlM_progress (hinit : P [] s)
    (hstep : ∀ done x rest u, l = done ++ x :: rest → P done u →
      ∃ u', f u x = .ok u' ∧ P (done ++ [x]) u') : ∃ t, l.foldlM f s = .ok t ∧ P l t := by
  have hgen : ∀ rest done u, l = done ++ rest → P done u →
      ∃ t, rest.foldlM f u = .ok t ∧ P l t := by
    intro rest
    induction rest with
    | nil =>
      intro done u hl hP
      rw [append_nil] at hl
      exact ⟨u, rfl, hl ▸ hP⟩
    | cons x rest ih =>
      intro done u hl hP
      obtain ⟨u', hx, hP'⟩ := hstep done x rest u hl hP
      obtain ⟨t, ht, hPt⟩ := ih (done ++ [x]) u' (by simpa using hl) hP'
      refine ⟨t, ?_, hPt⟩
      rw [foldlM_cons, hx]
      exact ht
  exact hgen l [] s rfl hinit

/-- **Crossing rule for fallible loops.** A loop that comes to `P` from a state without it does so
in some iteration. -/
theorem foldlM_crossing {P : σ → Prop} (hs : ¬ P s) (ht : P t) (hrun : l.foldlM f s = .ok t) :
    ∃ done x rest u u', l = done ++ x :: rest ∧ done.foldlM f s = .ok u ∧ ¬ P u ∧ f u x = .ok u' ∧
      P u' := by
  by_contra hnone
  refine foldlM_induction_run (P := fun _ u => ¬ P u) hs ?_ hrun ht
  intro done x rest u u' hl hdone hu hx hu'
  exact hnone ⟨done, x, rest, u, u', hl, hdone, hu, hx, hu'⟩

/-- A loop in a loop is one loop over all the elements. -/
theorem foldlM_flatMap {β : Type w} {f : σ → β → Except ε σ} {g : α → List β} :
    (l.flatMap g).foldlM f s = l.foldlM (fun s x => (g x).foldlM f s) s := by
  induction l generalizing s with
  | nil => rfl
  | cons x l ih =>
    rw [flatMap_cons, foldlM_append, foldlM_cons]
    exact congrArg _ (funext fun _ => ih)

/-- A loop that counts the elements with `p`, and fails at those without `C`. -/
theorem foldlM_countP {f : Nat → α → Except ε Nat} {C : α → Prop} {p : α → Bool}
    (hf : ∀ n x n', f n x = .ok n' ↔ C x ∧ n' = n + if p x then 1 else 0) {n n' : Nat} :
    l.foldlM f n = .ok n' ↔ (∀ x ∈ l, C x) ∧ n' = n + l.countP p := by
  induction l generalizing n with
  | nil =>
    refine ⟨?_, ?_⟩
    · intro h
      cases h
      exact ⟨fun x hx => absurd hx not_mem_nil, rfl⟩
    · rintro ⟨-, rfl⟩
      rfl
  | cons x l ih =>
    rw [foldlM_cons, bind_eq_ok, forall_mem_cons, countP_cons]
    constructor
    · rintro ⟨k, hk, hrest⟩
      obtain ⟨hx, rfl⟩ := (hf n x k).mp hk
      obtain ⟨hl, rfl⟩ := ih.mp hrest
      exact ⟨⟨hx, hl⟩, by omega⟩
    · rintro ⟨⟨hx, hl⟩, rfl⟩
      exact ⟨_, (hf n x _).mpr ⟨hx, rfl⟩, ih.mpr ⟨hl, by omega⟩⟩

/-- Two iterations of a loop are the same one, or one comes before the other. -/
theorem split_cases {done done' rest rest' : List α} {x y : α} (h : l = done ++ x :: rest)
    (h' : l = done' ++ y :: rest') :
    (done = done' ∧ x = y ∧ rest = rest') ∨ (∃ mid, done' = done ++ x :: mid) ∨
      ∃ mid, done = done' ++ y :: mid := by
  rcases append_eq_append_iff.mp (h.symm.trans h') with ⟨mid, hdone, hrest⟩ | ⟨mid, hdone, hrest⟩
  · cases mid with
    | nil =>
      rw [append_nil] at hdone
      obtain ⟨hxy, hrest⟩ := cons_eq_cons.mp hrest
      exact .inl ⟨hdone.symm, hxy, hrest⟩
    | cons z mid =>
      obtain ⟨rfl, -⟩ := cons_eq_cons.mp hrest
      exact .inr (.inl ⟨mid, hdone⟩)
  · cases mid with
    | nil =>
      rw [append_nil] at hdone
      obtain ⟨hxy, hrest⟩ := cons_eq_cons.mp hrest
      exact .inl ⟨hdone, hxy.symm, hrest.symm⟩
    | cons z mid =>
      obtain ⟨rfl, -⟩ := cons_eq_cons.mp hrest
      exact .inr (.inr ⟨mid, hdone⟩)

/-! ## Runs on given inputs -/

instance existsSome {o : Option α} {Q : α → Prop} [DecidablePred Q] :
    Decidable (∃ a, o = some a ∧ Q a) :=
  inferInstanceAs (Decidable (∃ a ∈ o, Q a))

instance existsEnd {o : Option (α × σ)} [DecidableEq α] {r : α} {Q : σ → Prop} [DecidablePred Q] :
    Decidable (∃ s, o = some (r, s) ∧ Q s) :=
  decidable_of_iff (∃ p, o = some p ∧ p.1 = r ∧ Q p.2)
    ⟨fun ⟨p, ho, hr, hQ⟩ => ⟨p.2, by rw [ho, ← hr], hQ⟩, fun ⟨s, ho, hQ⟩ => ⟨(r, s), ho, rfl, hQ⟩⟩

/-- What can be computed of the state that a run ends in, and what follows from it. -/
theorem exists_end {g : σ → α} {x : α} {Q R : σ → Prop} (h : ∃ s, x = g s ∧ Q s)
    (hR : ∀ s, x = g s → Q s → R s) : ∃ s, x = g s ∧ R s :=
  h.imp fun s ⟨hx, hQ⟩ => ⟨hx, hR s hx hQ⟩

end Go
