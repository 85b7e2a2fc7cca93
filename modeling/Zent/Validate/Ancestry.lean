import Zent.Viewpoint.Right

/-!
# Ancestry of rights

`decentOf` of `omega/validate/rights.go` walks up from a right for as many steps as the other right
is deeper, where it should be less deep: it never finds an ancestor, and it may leave the tree.
-/

namespace Zent.Viewpoint.Ancestry

open Go Option Function Int32

/-- What `FetchRightEntry` finds, in the view or in the database. -/
def found (db view : RightViewpoint) (h : Hash) : Option RightItem :=
  (fetchRightEntry db view h).1.map RightViewEntry.item

/-- The loop of `decentOf`. -/
def decentLoop (fetch : Hash → Option RightItem) (h2 : Hash) : Nat → Hash → Outcome Empty Bool
  | 0, _ => .ok false
  | d + 1, lh =>
    match fetch lh with
    | some (.right f) => if f.father = h2 then .ok true else decentLoop fetch h2 d f.father
    -- the type assertion on a set, or on nil
    | _ => crash

def decentOf (fetch : Hash → Option RightItem) (son : RightEntry) (h : Hash) (anc : RightEntry)
    (h2 : Hash) : Outcome Empty Bool :=
  if son.root ≠ anc.root then .ok false
  else decentLoop fetch h2 (anc.depth - son.depth).toInt.toNat h

/-- The hash that is reached over `n` fathers. -/
def ascend (fetch : Hash → Option RightItem) : Nat → Hash → Option Hash
  | 0, h => some h
  | n + 1, h =>
    match fetch h with
    | some (.right e) => ascend fetch n e.father
    | _ => none

def Reached (fetch : Hash → Option RightItem) (h h2 : Hash) : Prop :=
  ∃ n, ascend fetch (n + 1) h = some h2

/-- Rights that have been added by `AddRight`, none with the zero hash or with the hash of one that
has another father. They may move from the view to the database and be cached. -/
inductive Built (env : RightEnv) : RightViewpoint → RightViewpoint → Prop where
  | empty : Built env ∅ ∅
  | add {db view view' : RightViewpoint} {father : Hash} {desc : Bytes} {attrib : UInt8}
      {b : Bool} :
    Built env db view → env.defHash (.rightDef father desc attrib) ≠ zerohash →
    (∀ i, found db view (env.defHash (.rightDef father desc attrib)) = some i →
      ∃ e, i = .right e ∧ e.father = father) →
    addRight env db view father desc attrib = .ok (b, view') → Built env db view'
  | move {db view db' view' : RightViewpoint} : Built env db view →
    found db' view' = found db view → Built env db' view'

variable {env : RightEnv} {db view view' : RightViewpoint} {h h2 k father : Hash} {desc : Bytes}
  {attrib : UInt8} {b : Bool} {e son anc : RightEntry} {fetch : Hash → Option RightItem} {m n : Nat}

theorem found_eq (db view : RightViewpoint) (h : Hash) :
    found db view h = ((view.lookup h).or (db.lookup h)).map RightViewEntry.item := by
  rw [found, fetchRightEntry, RightViewpoint.lookupEntry, RightViewpoint.lookupEntry]
  cases view.lookup h <;> cases db.lookup h <;> rfl

theorem found_insert (i : RightViewEntry) :
    found db (view.insert h i) = update (found db view) h (some i.item) := by
  funext k
  by_cases hk : k = h
  · subst hk
    simp [found_eq]
  · simp [found_eq, hk]

theorem found_fetch (db view : RightViewpoint) (h : Hash) :
    found db (fetchRightEntry db view h).2 = found db view := by
  rw [fetchRightEntry, RightViewpoint.lookupEntry, RightViewpoint.lookupEntry]
  cases hv : view.lookup h with
  | some e => rfl
  | none => cases hd : db.lookup h <;> simp [found_insert, found_eq, hv, hd]

/-- **What `AddRight` does**: nothing is found otherwise than before, or the right is entered below
its father. -/
theorem found_addRight (hadd : addRight env db view father desc attrib = .ok (b, view')) :
    found db view' = found db view ∨ ∃ e : RightEntry, e.father = father ∧
      found db view' = update (found db view)
        (env.defHash (.rightDef father desc attrib)) (some (.right e)) ∧
      (father = zerohash ∧ e.depth = 0 ∨
        ∃ f, found db view father = some (.right f) ∧ e.depth = f.depth + 1) := by
  have hfetch := found_fetch db view father
  have hfound : found db view father = (fetchRightEntry db view father).1.map _ := rfl
  simp only [addRight] at hadd
  generalize fetchRightEntry db view father = r at hadd hfetch hfound
  repeat' split at hadd
  all_goals cases hadd
  all_goals try exact .inl rfl
  all_goals try exact .inl hfetch
  · exact .inr ⟨_, rfl, found_insert _, .inl ⟨‹_›, rfl⟩⟩
  · rename_i f v _ f' hitem _ _
    refine .inr ⟨_, rfl, (found_insert _).trans (by rw [← hfetch]), .inr ⟨f', ?_, rfl⟩⟩
    rw [hfound, map_some, hitem]

/-! ## Depths -/

theorem ascend_add : ascend fetch (m + n) h = (ascend fetch m h).bind (ascend fetch n) := by
  induction m generalizing h with
  | zero => rw [Nat.zero_add, ascend, bind_some]
  | succ m ih =>
    rw [Nat.add_right_comm, ascend, ascend]
    split
    · exact ih
    · rfl

theorem ascend_unique (hzero : fetch zerohash = none) (hm : ascend fetch m h = some zerohash)
    (hn : ascend fetch n h = some zerohash) : m = n := by
  wlog hle : m ≤ n
  · exact (this hzero hn hm (Nat.le_of_not_le hle)).symm
  obtain ⟨d, rfl⟩ := Nat.exists_eq_add_of_le hle
  rw [ascend_add, hm, bind_some] at hn
  cases d with
  | zero => rfl
  | succ d => simp [ascend, hzero] at hn

/-- A right that is entered, or entered again, changes no way. -/
theorem ascend_update (hown : ∀ i, fetch h = some i → ∃ e', i = .right e' ∧ e'.father = e.father)
    (hup : ascend fetch n k = some h2) :
    ascend (update fetch h (some (.right e))) n k = some h2 := by
  induction n generalizing k with
  | zero => exact hup
  | succ n ih =>
    rw [ascend] at hup ⊢
    split at hup
    case h_2 => cases hup
    rename_i e' he'
    by_cases hk : k = h
    · subst hk
      obtain ⟨_, ⟨⟩, hfather⟩ := hown _ he'
      rw [update_self]
      exact ih (hfather ▸ hup)
    · rw [update_of_ne hk, he']
      exact ih hup

/-- **The depth is the number of fathers**, up to the zero hash, which is no right. -/
theorem Built.depth (hb : Built env db view) : found db view zerohash = none ∧
    ∀ h i, found db view h = some i → ∃ e n, i = .right e ∧ e.depth = ofNat n ∧
      ascend (found db view) (n + 1) h = some zerohash := by
  induction hb with
  | empty => exact ⟨rfl, fun h i hi => by simp [found_eq] at hi⟩
  | move _ heq ih => exact heq ▸ ih
  | @add _ _ _ father desc attrib _ _ hne hown hadd ih =>
    obtain heq | ⟨e, rfl, heq, he⟩ := found_addRight hadd
    · exact heq ▸ ih
    rw [heq]
    refine ⟨by rw [update_of_ne hne.symm, ih.1], fun k i hi => ?_⟩
    by_cases hk : k = env.defHash (.rightDef e.father desc attrib)
    · subst hk
      rw [update_self] at hi
      cases hi
      obtain ⟨hroot, hdepth⟩ | ⟨f, hf, hdepth⟩ := he
      · exact ⟨e, 0, rfl, hdepth, by simp [ascend, hroot]⟩
      obtain ⟨_, n, ⟨⟩, hfd, hup⟩ := ih.2 _ _ hf
      refine ⟨e, n + 1, rfl, by rw [hdepth, hfd]; exact (ofNat_add n 1).symm, ?_⟩
      rw [ascend, update_self]
      exact ascend_update hown hup
    · rw [update_of_ne hk] at hi
      obtain ⟨e', n, rfl, hdepth, hup⟩ := ih.2 k i hi
      exact ⟨e', n, rfl, hdepth, ascend_update hown hup⟩

/-! ## The test -/

theorem decentLoop_eq {d : Nat} (hmiss : ∀ n < d, ascend fetch (n + 1) h ≠ some h2) :
    decentLoop fetch h2 d h = if (ascend fetch d h).isSome then .ok false else crash := by
  induction d generalizing h with
  | zero => rfl
  | succ d ih =>
    rw [decentLoop, ascend]
    split
    case h_1 f hf =>
      have hup : ∀ n, ascend fetch (n + 1) h = ascend fetch n f.father := by
        intro n
        rw [ascend, hf]
      rw [if_neg fun heq => hmiss 0 d.succ_pos (by rw [hup, ascend, heq])]
      refine ih fun n hn => ?_
      rw [← hup]
      exact hmiss (n + 1) (Nat.succ_lt_succ hn)
    · rfl

/-- **The ancestry test is right exactly if there is no ancestry**, and the rights are in different
trees or the walk does not go beyond the root. -/
theorem decentOf_iff (hb : Built env db view) (hson : found db view h = some (.right son))
    (hanc : found db view h2 = some (.right anc)) :
    (∃ b, decentOf (found db view) son h anc h2 = .ok b ∧
        (b = true ↔ Reached (found db view) h h2)) ↔
      ¬ Reached (found db view) h h2 ∧ (son.root ≠ anc.root ∨
        (ascend (found db view) (anc.depth - son.depth).toInt.toNat h).isSome) := by
  have hmiss : ∀ n < (anc.depth - son.depth).toInt.toNat,
      ascend (found db view) (n + 1) h ≠ some h2 := by
    intro n hn hup
    obtain ⟨_, m, ⟨⟩, hdepth, htop⟩ := hb.depth.2 h _ hson
    obtain ⟨_, m', ⟨⟩, hdepth', htop'⟩ := hb.depth.2 h2 _ hanc
    have hway : ascend (found db view) (n + 1 + (m' + 1)) h = some zerohash := by
      rw [ascend_add, hup, bind_some, htop']
    have hm := ascend_unique hb.depth.1 htop hway
    rw [hdepth, hdepth', toInt_sub, toInt_ofNat', toInt_ofNat'] at hn
    simp only [Int.bmod, size] at hn
    omega
  rw [decentOf]
  by_cases hroot : son.root = anc.root
  · rw [if_neg (not_not.mpr hroot), decentLoop_eq hmiss]
    split <;> simp_all [crash]
  · simp [hroot]

/-! ## A right and its child -/

def sampleEnv : RightEnv where
  defHash
    | .rightDef _ desc _ => BitVec.ofNat 256 (desc.headD 0).toNat
    | _ => 0
  contractExists _ := false

def rootRight : RightEntry := ⟨0, 1, 0, [1], 0⟩

def childRight : RightEntry := ⟨1, 1, 1, [2], 0⟩

def rootView : RightViewpoint := AList.insert 1 ⟨.right rootRight, true, false⟩ ∅

def childView : RightViewpoint := rootView.insert 2 ⟨.right childRight, true, false⟩

theorem built_child : Built sampleEnv ∅ childView := by
  have hroot : addRight sampleEnv ∅ ∅ 0 [1] 0 = .ok (true, rootView) := rfl
  have hchild : addRight sampleEnv ∅ rootView 1 [2] 0 = .ok (true, childView) := rfl
  refine .add (.add .empty ?_ ?_ hroot) ?_ ?_ hchild
  all_goals first | decide | nofun

/-- The child is no ancestor of its father, and is not taken for one. -/
theorem decentOf_root : ∃ b, decentOf (found ∅ childView) rootRight 1 childRight 2 = .ok b ∧
    (b = true ↔ Reached (found ∅ childView) 1 2) := by
  refine (decentOf_iff built_child (by decide +kernel) (by decide +kernel)).mpr ⟨?_, .inr rfl⟩
  rintro ⟨n, hn⟩
  cases n <;> cases hn

/-- **The father of a right is not taken for its ancestor.** -/
theorem decentOf_child : Built sampleEnv ∅ childView ∧
    found ∅ childView 2 = some (.right childRight) ∧ found ∅ childView 1 = some (.right rootRight) ∧
    Reached (found ∅ childView) 2 1 ∧
    decentOf (found ∅ childView) childRight 2 rootRight 1 = .ok false :=
  ⟨built_child, by decide +kernel, by decide +kernel, ⟨0, by decide +kernel⟩, by decide +kernel⟩

end Zent.Viewpoint.Ancestry
