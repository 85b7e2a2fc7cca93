import Mathlib.Algebra.Order.Ring.Nat
import Mathlib.Data.List.Infix
import Zent.Go.Returns

/-!
# Decoders and what they allocate

A decoder reads from a buffer and makes slices for what it is going to read. It is written as a
function of the bytes that are left and of the number of slice elements allocated so far. Fields
of the input that are worth a record can be noted; nothing reads the record.

A decoder that makes a slice before it knows that the elements are there can allocate more than it
reads. What it allocates is covered by what it reads as long as bytes are left; `Thrifty` says by
how much it can exceed that otherwise. In a sequence of thrifty decoders only one can exceed its
share, because the next one finds nothing to read and stops.

* `Quiet` — a decoder that allocates nothing; `Strict`, `Progress` — it fails at the end of the
  input, or consumes something; `Eager` — all three.
* `Capped`, `Loose`, `Thrifty`, `Item` — bounds on the allocation; `Capped.bind`, `Loose.bind`,
  `Eager.bind_loose`, `Thrifty.times`, `Loose.guarded`, `Loose.declared` are the rules.
-/

namespace Go

open List

universe u

/-- The buffer, and what has been allocated. -/
structure Src (φ : Type) where
  rest : List UInt8
  /-- slice elements allocated so far -/
  alloc : Nat
  /-- fields noted so far -/
  fields : List φ

/-- A decoder. -/
def Dec (φ ε α : Type) : Type := Src φ → Outcome ε α × Src φ

namespace Dec

variable {φ ε α β : Type}

/-- `runtime.maxAlloc` on a 64 bit platform: a slice of more bytes is out of range. -/
def maxAlloc : Nat := 2 ^ 48

protected def bind (d : Dec φ ε α) (f : α → Dec φ ε β) : Dec φ ε β := fun s =>
  match d s with
  | (.ok a, s') => f a s'
  | (.error e, s') => (.error e, s')

instance : Monad (Dec φ ε) where
  pure a s := (.ok a, s)
  bind := Dec.bind

/-- Return an error value. -/
def fail (e : ε) : Dec φ ε α := fun s => (Go.fail e, s)

/-- Go on with `none` where the decoder returns an error value. -/
def attempt (d : Dec φ ε α) : Dec φ ε (Option α) := fun s =>
  match d s with
  | (.ok a, s') => (.ok (some a), s')
  | (.error (.error _), s') => (.ok none, s')
  | (.error .panic, s') => (Go.crash, s')

/-- `io.ReadFull` into a buffer of `n` bytes. -/
def readFull (eof unexpected : ε) (n : Nat) : Dec φ ε (List UInt8) := fun s =>
  (if n ≤ s.rest.length then .ok (s.rest.take n)
    else if s.rest = [] then Go.fail eof else Go.fail unexpected,
   { s with rest := s.rest.drop n })

/-- `io.ReadFull` whose error is ignored: what is missing stays in the buffer as it was. -/
def readOver (old : List UInt8) : Dec φ ε (List UInt8) := fun s =>
  (.ok (s.rest.take old.length ++ old.drop s.rest.length),
   { s with rest := s.rest.drop old.length })

/-- The method `Read` of a buffer: an error only where nothing is left. -/
def read (eof : ε) (old : List UInt8) : Dec φ ε (List UInt8) := fun s =>
  if s.rest = [] then (Go.fail eof, s) else readOver old s

/-- A computation that reads nothing. -/
def lift (x : Outcome ε α) : Dec φ ε α := fun s => (x, s)

/-- Make `slots` slices of `n` elements, the largest element being of `size` bytes. -/
def make (size slots : Nat) (n : Int) : Dec φ ε Unit := fun s =>
  if 0 ≤ n ∧ n.toNat * size ≤ maxAlloc then (.ok (), { s with alloc := s.alloc + slots * n.toNat })
  else (Go.crash, s)

/-- Note a field. -/
def note (f : φ) : Dec φ ε Unit := fun s => (.ok (), { s with fields := s.fields ++ [f] })

/-- A decoder `n` times. -/
def times : Nat → Dec φ ε α → Dec φ ε (List α)
  | 0, _ => pure []
  | n + 1, d => do
    let a ← d
    let rest ← times n d
    return a :: rest

theorem pure_apply (a : α) (s : Src φ) : (pure a : Dec φ ε α) s = (.ok a, s) := (rfl)

variable {d : Dec φ ε α} {f : α → Dec φ ε β}

theorem bind_ok {s s' : Src φ} {a : α} (h : d s = (.ok a, s')) : (d >>= f) s = f a s' := by
  show Dec.bind d f s = _
  rw [Dec.bind, h]

theorem bind_error {s s' : Src φ} {e : Fault ε} (h : d s = (.error e, s')) :
    (d >>= f) s = (.error e, s') := by
  show Dec.bind d f s = _
  rw [Dec.bind, h]

theorem bind_cases (d : Dec φ ε α) (f : α → Dec φ ε β) (s : Src φ) :
    (∃ a, (d s).1 = .ok a ∧ (d >>= f) s = f a (d s).2) ∨
      ∃ e, (d s).1 = .error e ∧ (d >>= f) s = (.error e, (d s).2) := by
  cases h : (d s).1 with
  | ok a => exact .inl ⟨a, rfl, bind_ok (Prod.ext h rfl)⟩
  | error e => exact .inr ⟨e, rfl, bind_error (Prod.ext h rfl)⟩

/-- An error that is passed on. -/
theorem returns_passed {x : Outcome ε α} {e : Fault ε} (he : x = .error e) (h : Returns x) :
    Returns (.error e : Outcome ε β) := by
  intro hcrash
  cases hcrash
  exact h he

/-- What has been read stays read. -/
theorem attempt_snd (d : Dec φ ε α) (s : Src φ) : (attempt d s).2 = (d s).2 := by
  rw [attempt]
  split <;> simp_all

/-! ## What every decoder keeps -/

section Sources

variable {s s' s'' : Src φ}

/-- Bytes are only taken, elements only allocated, fields only added. -/
structure Later (s s' : Src φ) : Prop where
  shrink : s'.rest.length ≤ s.rest.length
  grow : s.alloc ≤ s'.alloc
  fields : s.fields <+: s'.fields

theorem Later.refl (s : Src φ) : Later s s := ⟨le_refl _, le_refl _, prefix_refl _⟩

theorem Later.trans (h : Later s s') (h' : Later s' s'') : Later s s'' :=
  ⟨h'.shrink.trans h.shrink, h.grow.trans h'.grow, h.fields.trans h'.fields⟩

theorem Later.rest_eq_nil (h : Later s s') (hs : s.rest = []) : s'.rest = [] := by
  have hlen := h.shrink
  rwa [hs, length_nil, Nat.le_zero, length_eq_zero_iff] at hlen

/-- Bytes are only taken. -/
structure Reads (s s' : Src φ) : Prop where
  shrink : s'.rest.length ≤ s.rest.length
  alloc : s'.alloc = s.alloc
  fields : s'.fields = s.fields

theorem Reads.refl (s : Src φ) : Reads s s := ⟨le_refl _, rfl, rfl⟩

theorem Reads.trans (h : Reads s s') (h' : Reads s' s'') : Reads s s'' :=
  ⟨h'.shrink.trans h.shrink, h'.alloc.trans h.alloc, h'.fields.trans h.fields⟩

theorem reads_drop (s : Src φ) (n : Nat) : Reads s { s with rest := s.rest.drop n } :=
  ⟨by rw [length_drop]; exact Nat.sub_le _ _, rfl, rfl⟩

end Sources

def Steady (d : Dec φ ε α) : Prop := ∀ s, Later s (d s).2

/-- The decoder consumes something, where something is left. -/
def Progress (d : Dec φ ε α) : Prop := ∀ s, s.rest ≠ [] → (d s).2.rest.length < s.rest.length

/-- The decoder fails where nothing is left. -/
def Strict (d : Dec φ ε α) : Prop := ∀ s, s.rest = [] → ∃ e, d s = (Go.fail e, s)

/-- The decoder only reads. -/
structure Quiet (d : Dec φ ε α) : Prop where
  reads : ∀ s, Reads s (d s).2
  returns : ∀ s, Returns (d s).1

namespace Quiet

theorem pure (a : α) : Quiet (pure a : Dec φ ε α) := ⟨Reads.refl, fun _ => returns_ok a⟩

theorem fail (e : ε) : Quiet (fail e : Dec φ ε α) := ⟨Reads.refl, fun _ => returns_fail e⟩

theorem readFull (eof unexpected : ε) (n : Nat) :
    Quiet (readFull eof unexpected n : Dec φ ε _) where
  reads s := reads_drop s n
  returns s := by
    refine returns_ite.mpr ⟨fun _ => returns_ok _, fun _ => ?_⟩
    exact returns_ite.mpr ⟨fun _ => returns_fail _, fun _ => returns_fail _⟩

theorem readOver (old : List UInt8) : Quiet (readOver old : Dec φ ε _) :=
  ⟨fun s => reads_drop s old.length, fun _ => returns_ok _⟩

theorem read (eof : ε) (old : List UInt8) : Quiet (read eof old : Dec φ ε _) := by
  refine ⟨fun s => ?_, fun s => ?_⟩ <;> rw [Dec.read] <;> split
  · exact .refl s
  · exact (readOver old).reads s
  · exact returns_fail eof
  · exact (readOver old).returns s

theorem bind (hd : Quiet d) (hf : ∀ a, Quiet (f a)) :
    Quiet (d >>= f) := by
  refine ⟨fun s => ?_, fun s => ?_⟩
  · obtain ⟨a, -, h⟩ | ⟨e, -, h⟩ := bind_cases d f s
    · rw [h]
      exact (hd.reads s).trans ((hf a).reads _)
    · rw [h]
      exact hd.reads s
  · obtain ⟨a, -, h⟩ | ⟨e, he, h⟩ := bind_cases d f s
    · rw [h]
      exact (hf a).returns _
    · rw [h]
      exact returns_passed he (hd.returns s)

theorem attempt (hd : Quiet d) : Quiet (attempt d) := by
  refine ⟨fun s => ?_, fun s => ?_⟩
  · rw [attempt_snd]
    exact hd.reads s
  · have hret := hd.returns s
    rw [Dec.attempt]
    split
    · exact returns_ok _
    · exact returns_ok _
    · rename_i hpanic
      rw [hpanic] at hret
      exact absurd rfl hret

theorem steady (h : Quiet d) : Steady d := fun s =>
  ⟨(h.reads s).shrink, le_of_eq (h.reads s).alloc.symm, by rw [(h.reads s).fields]⟩

end Quiet

theorem Strict.bind (hd : Strict d) : Strict (d >>= f) := by
  intro s hs
  obtain ⟨e, he⟩ := hd s hs
  exact ⟨e, bind_error he⟩

section Reads

variable (eof unexpected : ε)

theorem strict_readFull {n : Nat} (hn : 0 < n) :
    Strict (readFull eof unexpected n : Dec φ ε _) := by
  intro s hs
  refine ⟨eof, ?_⟩
  have hlt : ¬n ≤ s.rest.length := by
    rw [hs]
    exact not_le.mpr hn
  rw [readFull, if_neg hlt, if_pos hs, hs, drop_nil, ← hs]

theorem progress_readFull {n : Nat} (hn : 0 < n) :
    Progress (readFull eof unexpected n : Dec φ ε _) := by
  intro s hne
  have hpos := length_pos_iff.mpr hne
  rw [readFull, length_drop]
  omega

theorem progress_readOver {old : List UInt8} (hold : 0 < old.length) :
    Progress (readOver old : Dec φ ε _) := by
  intro s hne
  have hpos := length_pos_iff.mpr hne
  rw [readOver, length_drop]
  omega

end Reads

/-- Something is consumed where the first part does. -/
theorem Progress.bind (hd : Progress d) (hf : ∀ a, Steady (f a)) : Progress (d >>= f) := by
  intro s hne
  obtain ⟨a, -, h⟩ | ⟨e, -, h⟩ := bind_cases d f s
  · rw [h]
    exact (hf a _).shrink.trans_lt (hd s hne)
  · rw [h]
    exact hd s hne

theorem Progress.attempt (hd : Progress d) : Progress (attempt d) := by
  intro s hne
  rw [attempt_snd]
  exact hd s hne

/-- The decoder only reads: it fails where nothing is left, and consumes something otherwise. -/
structure Eager (d : Dec φ ε α) : Prop extends Quiet d where
  strict : Strict d
  progress : Progress d

theorem Eager.readFull (eof unexpected : ε) {n : Nat} (hn : 0 < n) :
    Eager (readFull eof unexpected n : Dec φ ε _) :=
  ⟨.readFull _ _ n, strict_readFull _ _ hn, progress_readFull _ _ hn⟩

theorem Eager.bind (hd : Eager d) (hf : ∀ a, Quiet (f a)) : Eager (d >>= f) :=
  ⟨hd.toQuiet.bind hf, hd.strict.bind, hd.progress.bind fun a => (hf a).steady⟩

/-! ## Bounds on what is allocated -/

/-- What is asked of the fields that are noted. -/
structure Policy (φ : Type) where
  sound : φ → Prop
  /-- the number of elements the field asks for -/
  weight : φ → Nat

/-- The field can be served, and asks for at most `m` elements. -/
def Policy.Fits (π : Policy φ) (m : Nat) (f : φ) : Prop := π.sound f ∧ π.weight f ≤ m

/-- What is allocated exceeds `c` elements for each byte read by at most `E`, if the fields ask for
at most `m`. Where the decoder does not panic it has served all fields. -/
structure Capped (π : Policy φ) (m c E : Nat) (d : Dec φ ε α) : Prop where
  steady : Steady d
  honest : ∀ s, Returns (d s).1 → ∀ f ∈ (d s).2.fields,
    f ∈ s.fields ∨ π.sound f ∧ π.weight f ≤ (d s).2.alloc
  returns : ∀ s, (∀ f ∈ (d s).2.fields, π.Fits m f) → Returns (d s).1
  bounded : ∀ s, (∀ f ∈ (d s).2.fields, π.Fits m f) →
    (d s).2.alloc + c * (d s).2.rest.length ≤ s.alloc + c * s.rest.length + E

/-- In addition, what is allocated is covered by what is read as long as there are bytes left. -/
structure Loose (π : Policy φ) (m c E : Nat) (d : Dec φ ε α) : Prop extends Capped π m c E d where
  covered : ∀ s a, (d s).1 = .ok a → (d s).2.rest ≠ [] →
    (d s).2.alloc + c * (d s).2.rest.length ≤ s.alloc + c * s.rest.length

/-- In addition, nothing is allocated where nothing is left. -/
structure Thrifty (π : Policy φ) (m c E : Nat) (d : Dec φ ε α) : Prop extends Loose π m c E d where
  dry : ∀ s, s.rest = [] → (d s).2.alloc = s.alloc

/-- In addition, something is consumed where something is left. -/
structure Item (π : Policy φ) (m c E : Nat) (d : Dec φ ε α) : Prop extends Thrifty π m c E d where
  progress : Progress d

variable {π : Policy φ} {m c E E₁ E₂ : Nat} {c' E' : Nat}

theorem Capped.mono (h : Capped π m c E d) (hc : c ≤ c') (hE : E ≤ E') : Capped π m c' E' d where
  steady := h.steady
  honest := h.honest
  returns := h.returns
  bounded s hs := by
    have hbound := h.bounded s hs
    obtain ⟨k, rfl⟩ := Nat.exists_eq_add_of_le hc
    have hmul := Nat.mul_le_mul_left k (h.steady s).shrink
    simp only [Nat.add_mul]
    omega

theorem Loose.mono (h : Loose π m c E d) (hc : c ≤ c') (hE : E ≤ E') : Loose π m c' E' d where
  toCapped := h.toCapped.mono hc hE
  covered s a ha hne := by
    have hcov := h.covered s a ha hne
    obtain ⟨k, rfl⟩ := Nat.exists_eq_add_of_le hc
    have hmul := Nat.mul_le_mul_left k (h.steady s).shrink
    simp only [Nat.add_mul]
    omega

theorem Thrifty.mono (h : Thrifty π m c E d) (hc : c ≤ c') (hE : E ≤ E') : Thrifty π m c' E' d :=
  { h.toLoose.mono hc hE with dry := h.dry }

theorem Quiet.thrifty (h : Quiet d) : Thrifty π m c E d := by
  have hcov : ∀ s, (d s).2.alloc + c * (d s).2.rest.length ≤ s.alloc + c * s.rest.length := by
    intro s
    have hmul := Nat.mul_le_mul_left c (h.reads s).shrink
    rw [(h.reads s).alloc]
    omega
  refine ⟨⟨⟨h.steady, fun s _ f hf => ?_, fun s _ => h.returns s, fun s _ => ?_⟩, ?_⟩, ?_⟩
  · exact .inl (by rwa [(h.reads s).fields] at hf)
  · exact (hcov s).trans (Nat.le_add_right _ _)
  · exact fun s _ _ _ => hcov s
  · exact fun s _ => (h.reads s).alloc

theorem Eager.item (h : Eager d) : Item π m c E d :=
  { h.toQuiet.thrifty with progress := h.progress }

section Bind

variable {d : Dec φ ε α} {f : α → Dec φ ε β}

theorem Steady.bind (hd : Steady d) (hf : ∀ s a, (d s).1 = .ok a → Steady (f a)) :
    Steady (d >>= f) := by
  intro s
  obtain ⟨a, ha, h⟩ | ⟨e, -, h⟩ := bind_cases d f s
  · rw [h]
    exact (hd s).trans (hf s a ha _)
  · rw [h]
    exact hd s

/-- Fields that fit after a decoder fitted before it. -/
theorem Steady.fits (hd : Steady d) {s : Src φ} (h : ∀ g ∈ (d s).2.fields, π.Fits m g) :
    ∀ g ∈ s.fields, π.Fits m g :=
  fun g hg => h g ((hd s).fields.subset hg)

theorem Capped.bind_aux (hd : Capped π m c E₁ d)
    (hf : ∀ s a, (d s).1 = .ok a → Capped π m c E₂ (f a)) (hE : E₁ ≤ E')
    (hbound : ∀ s a, (d s).1 = .ok a → (∀ g ∈ (f a (d s).2).2.fields, π.Fits m g) →
      (f a (d s).2).2.alloc + c * (f a (d s).2).2.rest.length ≤ s.alloc + c * s.rest.length + E') :
    Capped π m c E' (d >>= f) where
  steady := hd.steady.bind fun s a ha => (hf s a ha).steady
  honest s hret g hg := by
    obtain ⟨a, ha, h⟩ | ⟨e, he, h⟩ := bind_cases d f s
    · rw [h] at hret hg ⊢
      rcases (hf s a ha).honest _ hret g hg with hold | hnew
      · refine (hd.honest s (by rw [ha]; exact returns_ok a) g hold).imp_right fun hg => ?_
        exact ⟨hg.1, hg.2.trans ((hf s a ha).steady _).grow⟩
      · exact .inr hnew
    · rw [h] at hret hg ⊢
      exact hd.honest s (he ▸ returns_passed rfl hret) g hg
  returns s hs := by
    obtain ⟨a, ha, h⟩ | ⟨e, he, h⟩ := bind_cases d f s
    · rw [h] at hs ⊢
      exact (hf s a ha).returns _ hs
    · rw [h] at hs ⊢
      exact returns_passed he (hd.returns s hs)
  bounded s hs := by
    obtain ⟨a, ha, h⟩ | ⟨e, -, h⟩ := bind_cases d f s
    · rw [h] at hs ⊢
      exact hbound s a ha hs
    · rw [h] at hs ⊢
      exact (hd.bounded s hs).trans (Nat.add_le_add_left hE _)

/-- A sequence: what the parts exceed their shares by adds up. -/
theorem Capped.bind (hd : Capped π m c E₁ d)
    (hf : ∀ s a, (d s).1 = .ok a → Capped π m c E₂ (f a)) : Capped π m c (E₁ + E₂) (d >>= f) := by
  refine hd.bind_aux hf (Nat.le_add_right _ _) fun s a ha hfit => ?_
  have hfirst := hd.bounded s ((hf s a ha).steady.fits hfit)
  have hsecond := (hf s a ha).bounded _ hfit
  omega

/-- Both parts of a sequence are covered by what they read. -/
theorem covered_bind (hd : Loose π m c E₁ d) (hf : ∀ a, Loose π m c E₂ (f a)) {s : Src φ} {b : β}
    (hb : ((d >>= f) s).1 = .ok b) (hne : ((d >>= f) s).2.rest ≠ []) :
    ((d >>= f) s).2.alloc + c * ((d >>= f) s).2.rest.length ≤ s.alloc + c * s.rest.length := by
  obtain ⟨a, ha, h⟩ | ⟨e, -, h⟩ := bind_cases d f s
  · rw [h] at hb hne ⊢
    have hmid : (d s).2.rest ≠ [] := fun hnil => hne (((hf a).steady _).rest_eq_nil hnil)
    exact ((hf a).covered _ b hb hne).trans (hd.covered s a ha hmid)
  · rw [h] at hb
    cases hb

section

variable (hf : ∀ a, Thrifty π m c E (f a))

include hf

/-- **A sequence**: only one part exceeds its share. -/
theorem Loose.bind (hd : Loose π m c E d) :
    Loose π m c E (d >>= f) where
  toCapped := by
    refine hd.toCapped.bind_aux (fun _ a _ => (hf a).toCapped) (le_refl E) fun s a ha hfit => ?_
    by_cases hmid : (d s).2.rest = []
    · have hbound := hd.bounded s ((hf a).steady.fits hfit)
      rw [(hf a).dry _ hmid, ((hf a).steady _).rest_eq_nil hmid]
      rw [hmid] at hbound
      exact hbound
    · have hcov := hd.covered s a ha hmid
      have hbound := (hf a).bounded _ hfit
      omega
  covered _ _ hb hne := covered_bind hd (fun a => (hf a).toLoose) hb hne

theorem Thrifty.bind (hd : Thrifty π m c E d) :
    Thrifty π m c E (d >>= f) where
  toLoose := hd.toLoose.bind hf
  dry s hs := by
    obtain ⟨a, -, h⟩ | ⟨e, -, h⟩ := bind_cases d f s
    · rw [h, (hf a).dry _ ((hd.steady s).rest_eq_nil hs), hd.dry s hs]
    · rw [h]
      exact hd.dry s hs

theorem Item.bind (hd : Item π m c E d) :
    Item π m c E (d >>= f) :=
  { hd.toThrifty.bind hf with progress := hd.progress.bind fun a => (hf a).steady }

end

/-- A decoder that only reads allocates nothing of the share of a sequence. -/
theorem Quiet.bind_capped (hd : Quiet d) (hf : ∀ a, Capped π m c E (f a)) :
    Capped π m c E (d >>= f) :=
  zero_add E ▸ (hd.thrifty (E := 0)).toCapped.bind fun _ a _ => hf a

theorem Capped.bind_quiet (hd : Capped π m c E d) (hf : ∀ a, Quiet (f a)) :
    Capped π m c E (d >>= f) :=
  hd.bind fun _ a _ => ((hf a).thrifty (E := 0)).toCapped

/-- A decoder that only reads, and then one that may allocate where nothing is left. -/
theorem Quiet.bind_loose (hd : Quiet d) (hf : ∀ a, Loose π m c E (f a)) :
    Loose π m c E (d >>= f) where
  toCapped := hd.bind_capped fun a => (hf a).toCapped
  covered _ _ hb hne := covered_bind (hd.thrifty (E := 0)).toLoose hf hb hne

/-- A decoder that may allocate where nothing is left follows one that fails there. -/
theorem Eager.bind_loose (hd : Eager d) (hf : ∀ a, Loose π m c E (f a)) :
    Item π m c E (d >>= f) where
  toLoose := hd.toQuiet.bind_loose hf
  dry s hs := by
    obtain ⟨e, he⟩ := hd.strict s hs
    rw [bind_error he]
  progress := hd.progress.bind fun a => (hf a).steady

end Bind

/-! ## Loops and slices -/

theorem Thrifty.times (hd : Thrifty π m c E d) :
    ∀ n, Thrifty π m c E (times n d)
  | 0 => (Quiet.pure _).thrifty
  | n + 1 => hd.bind fun _ => (hd.times n).bind fun _ => (Quiet.pure _).thrifty

theorem length_times {l : List α} :
    ∀ {n : Nat} {s : Src φ}, (times n d s).1 = .ok l → l.length = n := by
  intro n
  induction n generalizing l with
  | zero =>
    intro s h
    cases h
    rfl
  | succ n ih =>
    intro s h
    rw [Dec.times] at h
    obtain ⟨a, -, hd⟩ | ⟨e, -, hd⟩ := bind_cases d (fun a => times n d >>= fun l => pure (a :: l)) s
    · rw [hd] at h
      obtain ⟨l', hl', hrest⟩ | ⟨e, -, hrest⟩ :=
        bind_cases (times n d) (fun l => (pure (a :: l) : Dec φ ε _)) (d s).2
      · rw [hrest] at h
        cases h
        rw [length_cons, ih hl']
      · rw [hrest] at h
        cases h
    · rw [hd] at h
      cases h

/-- The decoder reads at least `n` bytes if it leaves some. -/
def Covers (n : Nat) (d : Dec φ ε α) : Prop :=
  ∀ s a, (d s).1 = .ok a → (d s).2.rest ≠ [] → (d s).2.rest.length + n ≤ s.rest.length

theorem Item.covers_times (hd : Item π m c E d) : ∀ n, Covers n (times n d)
  | 0 => fun s a _ _ => le_refl _
  | n + 1 => by
    intro s l hl hne
    rw [Dec.times] at hl hne ⊢
    obtain ⟨a, -, h⟩ | ⟨e, -, h⟩ := bind_cases d (fun a => times n d >>= fun l => pure (a :: l)) s
    · rw [h] at hl hne ⊢
      obtain ⟨l', hl', hrest⟩ | ⟨e, -, hrest⟩ :=
        bind_cases (times n d) (fun l => (pure (a :: l) : Dec φ ε _)) (d s).2
      · rw [hrest] at hne ⊢
        have hcov := hd.covers_times n _ l' hl' hne
        have hlt := hd.progress s fun hnil => hne
          (((hd.times n).steady _).rest_eq_nil ((hd.steady s).rest_eq_nil hnil))
        show (times n d (d s).2).2.rest.length + (n + 1) ≤ s.rest.length
        omega
      · rw [hrest] at hl
        cases hl
    · rw [h] at hl
      cases hl

theorem Covers.bind {n : Nat} (hd : Covers n d) (hf : ∀ a, Steady (f a)) : Covers n (d >>= f) := by
  intro s b hb hne
  obtain ⟨a, ha, h⟩ | ⟨e, -, h⟩ := bind_cases d f s
  · rw [h] at hb hne ⊢
    have hlen := (hf a (d s).2).shrink
    have hcov := hd s a ha fun hnil => hne ((hf a _).rest_eq_nil hnil)
    omega
  · rw [h] at hb
    cases hb

theorem covers_readFull (eof unexpected : ε) (n : Nat) :
    Covers n (readFull eof unexpected n : Dec φ ε _) := by
  intro s a _ hne
  have hpos := length_pos_iff.mpr hne
  rw [readFull, length_drop] at hpos ⊢
  omega

theorem covers_readOver (old : List UInt8) : Covers old.length (readOver old : Dec φ ε _) := by
  intro s a _ hne
  have hpos := length_pos_iff.mpr hne
  rw [readOver, length_drop] at hpos ⊢
  omega

section Slices

variable {size slots N : Nat} {n : Int} {body : Dec φ ε α} {f : φ}

theorem make_ok (h : 0 ≤ n ∧ n.toNat * size ≤ maxAlloc) (s : Src φ) :
    (make size slots n >>= fun _ => body) s =
      body { s with alloc := s.alloc + slots * n.toNat } := by
  refine bind_ok (a := ()) ?_
  rw [make, if_pos h]

theorem make_crash (h : ¬(0 ≤ n ∧ n.toNat * size ≤ maxAlloc)) (s : Src φ) :
    (make size slots n >>= fun _ => body) s = (Go.crash, s) := by
  refine bind_error ?_
  rw [make, if_neg h]
  rfl

theorem Steady.make (hbody : Steady body) : Steady (make size slots n >>= fun _ => body) := by
  intro s
  by_cases h : 0 ≤ n ∧ n.toNat * size ≤ maxAlloc
  · rw [make_ok h]
    have hmade : Later s { s with alloc := s.alloc + slots * n.toNat } :=
      ⟨le_refl _, Nat.le_add_right _ _, prefix_refl _⟩
    exact hmade.trans (hbody _)
  · rw [make_crash h]
    exact .refl s

/-- Slices for a limited number of elements. -/
theorem Capped.guarded (hbody : Capped π m c E body) (hrange : 0 ≤ n ∧ n.toNat * size ≤ maxAlloc)
    (hN : n.toNat ≤ N) : Capped π m c (E + slots * N) (make size slots n >>= fun _ => body) where
  steady := hbody.steady.make
  honest s hret f hf := by
    rw [make_ok hrange] at hret hf ⊢
    exact hbody.honest _ hret f hf
  returns s hs := by
    rw [make_ok hrange] at hs ⊢
    exact hbody.returns _ hs
  bounded s hs := by
    rw [make_ok hrange] at hs ⊢
    have h := hbody.bounded _ hs
    have hmul := Nat.mul_le_mul_left slots hN
    simp only at h
    omega

/-- Slices for a limited number of elements, and then the elements. -/
theorem Loose.guarded (hbody : Loose π m c E body) (hcov : Covers n.toNat body)
    (hrange : 0 ≤ n ∧ n.toNat * size ≤ maxAlloc) (hN : n.toNat ≤ N) :
    Loose π m (c + slots) (E + slots * N) (make size slots n >>= fun _ => body) where
  toCapped := (hbody.toCapped.guarded hrange hN).mono (Nat.le_add_right c slots) (le_refl _)
  covered s a ha hne := by
    rw [make_ok hrange] at ha hne ⊢
    have h := hbody.covered _ a ha hne
    have hread := Nat.mul_le_mul_left slots (hcov _ a ha hne)
    simp only [mul_add, add_mul] at h hread ⊢
    omega

theorem Item.append (hd : Item π m c E d) (hstrict : Strict d) (hsize : size ≤ maxAlloc) :
    Thrifty π m (c + 1) (E + 1) (d >>= fun a => make size 1 1 >>= fun _ => pure a) := by
  have hrange : 0 ≤ (1 : Int) ∧ (1 : Int).toNat * size ≤ maxAlloc := by simpa using hsize
  have hpure : ∀ a : α, Thrifty π m c 0 (pure a : Dec φ ε α) := fun a => (Quiet.pure a).thrifty
  refine ⟨⟨?_, ?_⟩, ?_⟩
  · refine (hd.toCapped.mono (Nat.le_add_right c 1) (le_refl E)).bind fun s a _ => ?_
    have hone : Capped π m c (0 + 1 * (1 : Int).toNat)
        (make size 1 1 >>= fun _ => (pure a : Dec φ ε α)) :=
      (hpure a).toCapped.guarded hrange (le_refl _)
    exact hone.mono (Nat.le_add_right c 1) (le_refl 1)
  · intro s a ha hne
    obtain ⟨b, hb, h⟩ | ⟨e, -, h⟩ :=
      bind_cases d (fun a => make size 1 1 >>= fun _ => (pure a : Dec φ ε α)) s
    · rw [h, make_ok hrange] at hne ⊢
      have hcov := hd.covered s b hb hne
      have hlt := hd.progress s fun hnil => hne ((hd.steady s).rest_eq_nil hnil)
      simp only [pure_apply, add_mul, one_mul, Int.toNat_one] at hcov ⊢
      omega
    · rw [h] at ha
      cases ha
  · intro s hs
    obtain ⟨e, he⟩ := hstrict s hs
    rw [bind_error he]

theorem note_apply (f : φ) (d : Dec φ ε α) (s : Src φ) :
    (note f >>= fun _ => d) s = d { s with fields := s.fields ++ [f] } := bind_ok rfl

theorem Steady.note (f : φ) (hbody : Steady body) : Steady (Dec.note f >>= fun _ => body) := by
  intro s
  have hnoted : Later s { s with fields := s.fields ++ [f] } :=
    ⟨le_refl _, le_refl _, prefix_append _ _⟩
  exact hnoted.trans (hbody _)

/-- A field that is noted: what follows has served it where it does not panic, and can rely on it
where it fits. -/
theorem Capped.note (hsteady : Steady body)
    (hserved : ∀ s, Returns (body s).1 → π.sound f ∧ π.weight f ≤ (body s).2.alloc)
    (hhonest : ∀ s, Returns (body s).1 → ∀ g ∈ (body s).2.fields,
      g ∈ s.fields ∨ π.sound g ∧ π.weight g ≤ (body s).2.alloc)
    (hfit : π.Fits m f → Capped π m c E body) : Capped π m c E (Dec.note f >>= fun _ => body) := by
  have hmem : ∀ s, f ∈ ((Dec.note f >>= fun _ => body) s).2.fields := by
    intro s
    exact (hsteady _).fields.subset (mem_append_right _ (mem_singleton.mpr rfl))
  refine ⟨hsteady.note f, ?_, ?_, ?_⟩
  · intro s hret g hg
    rcases hhonest _ hret g hg with hold | hnew
    · rcases mem_append.mp hold with hold | hf
      · exact .inl hold
      · obtain rfl := mem_singleton.mp hf
        exact .inr (hserved _ hret)
    · exact .inr hnew
  · intro s hs
    have hbody := hfit (hs f (hmem s))
    exact hbody.returns _ hs
  · intro s hs
    have hbody := hfit (hs f (hmem s))
    rw [note_apply] at hs ⊢
    exact hbody.bounded _ hs

/-- **Slices for a number of elements that the input declares**, and then the elements. -/
theorem Loose.declared (hbody : Loose π m c E body) (hcov : Covers n.toNat body)
    (hslots : 0 < slots) (hsound : π.sound f ↔ 0 ≤ n ∧ n.toNat * size ≤ maxAlloc)
    (hweight : π.weight f = n.toNat) :
    Loose π m (c + slots) (E + slots * m)
      (note f >>= fun _ => make size slots n >>= fun _ => body) where
  toCapped := by
    refine Capped.note hbody.steady.make (fun s hret => ?_) (fun s hret g hg => ?_) fun hfit => ?_
    · by_cases hrange : 0 ≤ n ∧ n.toNat * size ≤ maxAlloc
      · refine ⟨hsound.mpr hrange, ?_⟩
        rw [make_ok hrange, hweight]
        refine le_trans ?_ (hbody.steady _).grow
        exact (Nat.le_mul_of_pos_left _ hslots).trans (Nat.le_add_left _ _)
      · rw [make_crash hrange] at hret
        exact absurd rfl hret
    · by_cases hrange : 0 ≤ n ∧ n.toNat * size ≤ maxAlloc
      · rw [make_ok hrange] at hret hg ⊢
        exact hbody.honest _ hret g hg
      · rw [make_crash hrange] at hret
        exact absurd rfl hret
    · exact (hbody.guarded hcov (hsound.mp hfit.1) (hweight ▸ hfit.2)).toCapped
  covered s a ha hne := by
    rw [note_apply] at ha hne ⊢
    by_cases hrange : 0 ≤ n ∧ n.toNat * size ≤ maxAlloc
    · exact (hbody.guarded hcov hrange (le_refl _)).covered _ a ha hne
    · rw [make_crash hrange] at ha
      cases ha

theorem Capped.checked {x : Outcome ε β} {g : β → Dec φ ε α} (hsound : π.sound f ↔ Returns x)
    (hweight : π.weight f = 0) (hg : ∀ b, Capped π m c E (g b)) :
    Capped π m c E (Dec.note f >>= fun _ => lift x >>= g) := by
  cases hx : x with
  | ok b =>
    have heq : (lift (.ok b) >>= g) = g b := rfl
    have hs : π.sound f := hsound.mpr (by rw [hx]; exact returns_ok b)
    exact Capped.note (hg b).steady (fun _ _ => ⟨hs, hweight ▸ Nat.zero_le _⟩) (hg b).honest
      fun _ => hg b
  | error e =>
    have heq : (lift (.error e) >>= g) = (lift (.error e) : Dec φ ε α) := rfl
    rw [heq]
    refine Capped.note Later.refl (fun s hret => ⟨hsound.mpr ?_, hweight ▸ Nat.zero_le _⟩)
      (fun s _ g hg => .inl hg) fun hfit => ⟨Later.refl, fun s _ g hg => .inl hg, fun s _ => ?_,
        fun s _ => Nat.le_add_right _ _⟩
    · exact hx ▸ returns_passed rfl hret
    · exact returns_passed hx (hsound.mp hfit.1)

end Slices

end Dec

end Go
