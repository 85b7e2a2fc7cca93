import Mathlib.Data.List.Sort
import Zent.Go.Range
import Zent.Go.Ranging
import Zent.Viewpoint.Utxo

/-!
# Checking the rights of a transaction

`omega/validate/rights.go`, `QuickCheckRight`. A token with rights carries a right or a set of
rights. A right is split into two: a positive one and its negative sibling, which differ in the
`NegativeRight` bit only. The check files the tokens of the outputs as positive and those of the
spent outputs as negative amounts (`ioRTokens`), and then puts amounts of siblings together to
amounts of their father until nothing changes.

The work loop ranges over the map it changes, so it is a machine whose next step is given by a
`Choice`: which entry the range produces, or that it ends. `run` follows a list of choices.
-/

namespace Zent.Validate

open Go

/-! ## Rights -/

/-- `token.RightDef`. The fields of a `RightEntry` that are read here are the same. -/
structure RightDef where
  father : Hash
  desc : Bytes
  attrib : UInt8
  deriving DecidableEq, Repr

/-- The bit of a right that tells it from its positive sibling. -/
def NegativeRight : UInt8 := 1

/-- The bit of a right whose tokens are monitored. -/
def Monitored : UInt8 := 4

namespace RightDef

def isNegative (e : RightDef) : Bool := e.attrib &&& NegativeRight != 0

/-- `Attrib &= 0xFE` -/
def positive (e : RightDef) : RightDef := { e with attrib := e.attrib &&& 0xFE }

/-- The sibling with the bit set. -/
def negative (e : RightDef) : RightDef := { e with attrib := e.attrib ||| NegativeRight }

/-- The bytes that `RightDef.Hash` hashes. -/
def bytes (e : RightDef) : Bytes := hashBytes e.father ++ e.desc ++ [e.attrib]

/-- The bit can be cleared and set. -/
theorem attrib_bits (a : UInt8) :
    ((a &&& 0xFE) &&& NegativeRight != 0) = false ∧
      ((a &&& NegativeRight != 0) = false → a &&& 0xFE = a) ∧
      ((a &&& NegativeRight != 0) = true → (a &&& 0xFE) ||| NegativeRight = a) ∧
      (a &&& 0xFE) ||| NegativeRight = a ||| NegativeRight := by
  rw [← UInt8.ofFin_toFin a]
  generalize a.toFin = n
  revert n
  decide +kernel

theorem isNegative_positive (e : RightDef) : e.positive.isNegative = false :=
  (attrib_bits e.attrib).1

theorem positive_of_not_isNegative {e : RightDef} (h : e.isNegative = false) : e.positive = e := by
  rw [positive, (attrib_bits e.attrib).2.1 h]

theorem negative_positive (e : RightDef) : e.positive.negative = e.negative := by
  simp only [positive, negative, (attrib_bits e.attrib).2.2.2]

theorem negative_of_isNegative {e : RightDef} (h : e.isNegative = true) : e.negative = e := by
  rw [negative, ← (attrib_bits e.attrib).2.2.2, (attrib_bits e.attrib).2.2.1 h]

end RightDef

/-- What is stored under a hash: a right or a set of them. -/
inductive RightItem where
  | right (e : RightDef)
  | rightSet (rights : List Hash)
  deriving DecidableEq, Repr

/-- The interface value that `GetRight` returns: nil, or a pointer to an entry that can be nil. -/
inductive Fetched where
  | nil
  | right (e : Option RightDef)
  | rightSet (rights : Option (List Hash))
  deriving DecidableEq, Repr

/-- `viewpoint.ViewPointSet`, as far as the check reads it. -/
structure Views where
  /-- `chainhash.HashH` -/
  hashH : Bytes → Hash
  txHash : MsgTx → Hash
  utxo : UtxoViewpoint
  /-- the entries of the rights view, and below them those of the database -/
  stored : Hash → Option RightItem
  /-- a right is stored under its hash -/
  keyed : ∀ {h e}, stored h = some (.right e) → hashH e.bytes = h

/-- `validate.RuleError`, or the error of `fmt.Errorf`. -/
inductive CheckError where
  | ruleError (code : Int) (description : Message)
  | errorf (description : Message)
  deriving DecidableEq, Repr

abbrev Checked (α : Type) : Type := Outcome CheckError α

/-- `fmt.Errorf("Right undefined")` -/
def rightUndefined : CheckError := .errorf ⟨"Right undefined", []⟩

namespace Views

variable (v : Views)

def rightHash (e : RightDef) : Hash := v.hashH e.bytes

/-- The order of `RightSetDef.less`. -/
def sortRights (rights : List Hash) : List Hash :=
  rights.insertionSort fun a b => hashBytes a ≤ hashBytes b

/-- `RightSetDef.Hash` of sorted rights -/
def rightSetHash (rights : List Hash) : Hash := v.hashH (rights.flatMap hashBytes)

/-- `RightViewpoint.GetRight` -/
def getRight (hash : Hash) : Fetched :=
  if hash = zerohash then .nil
  else
    match v.stored hash with
    | some (.right e) => .right (some e)
    | some (.rightSet rights) => .rightSet (some rights)
    | none => .rightSet none

end Views

/-- `tokenRElement` -/
structure RElement where
  tokenType : UInt64
  right : Hash
  polygon : Hash
  deriving DecidableEq, Repr

section

variable (v : Views)

/-! ## Filing tokens -/

/-- The rights and the sets of rights that a transaction defines. -/
abbrev Defined : Type := Map Hash RightDef × Map Hash (List Hash)

/-- One definition. What is not a right must be a set of rights. -/
def noteDef (s : Defined) (x : Definition) : Checked Defined :=
  match x with
  | .separatorDef => .ok s
  | .rightDef father desc attrib =>
    .ok (s.1.insert (v.rightHash ⟨father, desc, attrib⟩) ⟨father, desc, attrib⟩, s.2)
  | .rightSetDef rights =>
    let rights := Views.sortRights rights
    .ok (s.1, s.2.insert (v.rightSetHash rights) rights)
  | _ => crash

def unirightfetch (right : Hash) (defdrights : Map Hash RightDef)
    (defdrsets : Option (Map Hash (List Hash))) : Fetched :=
  match v.getRight right with
  | .nil => .nil
  | .right (some e) => .right (some e)
  | .rightSet (some rights) => .rightSet (some rights)
  | _ =>
    match defdrights.lookup right with
    | some u => .right (some u)
    | none =>
      match defdrsets.bind fun sets => sets.lookup right with
      | some u => .rightSet (some u)
      | none => .right none

/-- The polygon and the amount of a token. A polygon counts as one. -/
def tokenAmount (t : Token) : Checked (Hash × Int64) :=
  if t.tokenType &&& 1 = 1 then do
    return (← hashVal t.value, 1)
  else do
    return (zerohash, ← numVal t.value)

/-- `*x.Rights` -/
def rightsOf (t : Token) : Checked Hash :=
  match t.rights with
  | some right => .ok right
  | none => crash

/-- File the amount `x` under a right, or under each right of a set. A nil interface files
nothing. -/
def file (p : Fetched) (te : RElement) (x : Int64) (res : Map RElement Int64) :
    Checked (Map RElement Int64) :=
  match p with
  | .right (some _) => .ok (bump res te x)
  | .rightSet (some rights) =>
    .ok (rights.foldl (fun res r => bump res { te with right := r } x) res)
  | .right none => fail rightUndefined
  | .rightSet none => fail rightUndefined
  | .nil => .ok res

/-- The token of an entry of the view. -/
def tokenOf (e : UtxoEntry) : Token := ⟨e.tokenType, e.amount, e.rights⟩

/-- One input of `ioRTokens`. -/
def fileInput (res : Map RElement Int64) (y : TxIn) : Checked (Map RElement Int64) :=
  if y.zeroHash then .ok res
  else
    match v.utxo.lookupEntry y.previousOutPoint with
    | none => crash
    | some e =>
      if e.tokenType &&& 2 = 0 then .ok res
      else do
        let (polygon, x) ← tokenAmount (tokenOf e)
        let right ← rightsOf (tokenOf e)
        file (v.getRight right) ⟨e.tokenType, right, polygon⟩ (-x) res

/-- One output of `ioRTokens`. -/
def fileOutput (defd : Defined) (res : Map RElement Int64) (x : TxOut) :
    Checked (Map RElement Int64) :=
  if x.isSeparator ∨ x.tokenType &&& 2 = 0 then .ok res
  else do
    let (polygon, val) ← tokenAmount x.toToken
    let right ← rightsOf x.toToken
    file (unirightfetch v right defd.1 (some defd.2)) ⟨x.tokenType, right, polygon⟩ val res

/-- The inputs; those from another chain are not looked at. -/
def fileInputs (tx : MsgTx) : Checked (Map RElement Int64) :=
  if tx.isCrossChain then .ok ∅ else tx.txIn.foldlM (fileInput v) ∅

def ioRTokens (tx : MsgTx) : Checked (Map RElement Int64 × Map Hash RightDef) := do
  let res ← fileInputs v tx
  let defd ← tx.txDef.foldlM (noteDef v) (∅, ∅)
  let res ← tx.txOut.foldlM (fileOutput v defd) res
  return (res, defd.1)

/-! ## Whether the check covers polygons -/

def PolyGonType : UInt64 := 3

/-- The checks on an output. Those of tokens with a hash or with rights are never reached. -/
def checkOut (txOut : TxOut) : Checked Unit :=
  if txOut.isSeparator ∨ txOut.tokenType &&& 3 ≠ 0 then .ok ()
  else do
    if txOut.tokenType &&& 1 ≠ 0 then
      if (← hashVal txOut.value) = zerohash then
        fail (.errorf ⟨"Hash token value is zero hash", []⟩)
    if txOut.tokenType &&& 2 ≠ 0 ∧ (txOut.rights = none ∨ txOut.rights = some zerohash) then
      fail (.errorf ⟨"Right is zero hash", []⟩)

/-- The scan of the outputs for a second polygon, with the first one found. -/
def scanOut (s : Bool × Hash) (txOut : TxOut) : Checked (Bool × Hash) :=
  if txOut.isSeparator then .ok s
  else if txOut.tokenType = PolyGonType ∧ s.1 then do
    let polygon ← hashVal txOut.value
    if s.2 = zerohash then return (s.1, polygon)
    else if polygon ≠ s.2 then return (false, s.2)
    else return s
  else .ok s

/-- Some right is monitored. -/
def monitored : List Hash → Checked Bool
  | [] => .ok false
  | d :: rest =>
    match v.stored d with
    | some (.right e) => if e.attrib &&& Monitored ≠ 0 then .ok true else monitored rest
    | _ => crash

/-- One input of the scan for another polygon or a monitored one. -/
def scanIn (tx : MsgTx) (polyhash : Hash) (checkPolygon : Bool) (txIn : TxIn) : Checked Bool :=
  if txIn.zeroHash then .ok checkPolygon
  else
    match v.utxo.lookupEntry txIn.previousOutPoint with
    | none => crash
    | some txin =>
      if txin.tokenType = PolyGonType ∧ checkPolygon then
        match txin.rights with
        | none => fail (.ruleError 1 ⟨"Tx %s input contains zero rights.", [.hash (v.txHash tx)]⟩)
        | some right => do
          let m ← match v.getRight right with
            | .rightSet (some rights) => monitored v rights
            | .rightSet none => crash
            | .right _ => monitored v [right]
            | .nil => .ok false
          if m ∨ polyhash = zerohash then return false
          return (← hashVal txin.amount) == polyhash
      else .ok checkPolygon

def definesPolygon : Definition → Bool
  | .polygonDef _ => true
  | _ => false

/-- The part of `QuickCheckRight` before the rights: does the check cover the polygons? -/
def coversPolygon (tx : MsgTx) : Checked Bool := do
  tx.txOut.forM checkOut
  let s ← if tx.txDef.any definesPolygon then pure (false, zerohash)
    else tx.txOut.foldlM scanOut (true, zerohash)
  if s.1 ∧ !tx.isCrossChain then tx.txIn.foldlM (scanIn v tx s.2) s.1 else return s.1

/-! ## The work loop -/

/-- The two maps, and whether something has changed in this pass. -/
structure Work where
  sumVals : Ranging RElement Int64
  siblingVals : Map RElement Int64
  checking : Bool

/-- Where the loop stands. -/
inductive State where
  /-- before the range produces an entry -/
  | pass (w : Work)
  /-- before the test of the inner loop, at an element with its right and an amount -/
  | climb (w : Work) (te : RElement) (g : RightDef) (tks : Int64)
  /-- after the loop -/
  | finished (w : Work)
  /-- `return false, fmt.Errorf("Right undefined")` -/
  | undefined

/-- What the range does next: produce an entry or end. The other steps leave no choice. -/
inductive Choice where
  | produce (i : RElement)
  | endPass
  | step
  deriving DecidableEq, Repr

def abs (x : Int64) : Int64 := if x < 0 then -x else x

variable (rts : Map Hash RightDef) (w : Work) (te : RElement)

/-- The right of a hash, where it is defined. -/
def fetch (right : Hash) : Option RightDef :=
  match unirightfetch v right rts none with
  | .right e => e
  | _ => none

/-- The body of the range up to the inner loop. -/
def visit (i : RElement) : State :=
  let tks := w.sumVals.vals.get i
  if tks = 0 then
    .pass { w with sumVals := (w.sumVals.produce i).delete i, checking := true }
  else
    match fetch v rts i.right with
    | none => .undefined
    | some g =>
      if g.isNegative then
        let te := { i with right := v.rightHash g.positive }
        .climb
          { sumVals := (w.sumVals.produce i).delete i
            siblingVals := bump w.siblingVals te tks
            checking := true }
          te g.positive tks
      else .climb { w with sumVals := w.sumVals.produce i } i g tks

/-- What is taken from an element and its sibling at once. -/
def share (s tks : Int64) : Int64 := if abs tks > abs s then s else tks

/-- Take `m` from an element and from its sibling, and delete what becomes zero. -/
def unload (m : Int64) : Work :=
  let siblingVals := dock w.siblingVals te m
  let sumVals := w.sumVals.sub te m
  { sumVals := if sumVals.vals.get te = 0 then sumVals.delete te else sumVals
    siblingVals := if siblingVals.get te = 0 then siblingVals.erase te else siblingVals
    checking := true }

/-- Give `m` to the father `f` of an element: to its own account, or if it is negative to the
sibling's account of its positive sibling. -/
def load (f : RightDef) (m : Int64) : State :=
  if f.isNegative then
    let te := { te with right := v.rightHash f.positive }
    .climb { w with siblingVals := bump w.siblingVals te m } te f.positive (w.sumVals.vals.get te)
  else
    let sumVals := w.sumVals.add te m
    .climb { w with sumVals := sumVals } te f (sumVals.vals.get te)

/-- The inner loop: its test, and one iteration. -/
def climb (g : RightDef) (tks : Int64) : State :=
  match w.siblingVals.lookup te with
  | none => .pass w
  | some s =>
    if s * tks > 0 then
      let m := share s tks
      match fetch v rts g.father with
      | none => .undefined
      | some f => load v (unload w te m) { te with right := g.father } f m
    else .pass w

/-- The test of the outer loop. -/
def again : State :=
  if w.checking ∧ w.sumVals.vals.entries.length ≠ 0 then
    .pass { w with sumVals := .enter w.sumVals.vals, checking := false }
  else .finished w

/-- The loop is entered. -/
def enter (sumVals : Map RElement Int64) : State := again ⟨.enter sumVals, ∅, true⟩

/-- One step. -/
def next (s : State) (c : Choice) : Option State :=
  match s, c with
  | .pass w, .produce i => if w.sumVals.Producible i then some (visit v rts w i) else none
  | .pass w, .endPass => if w.sumVals.due = ∅ then some (again w) else none
  | .climb w te g tks, .step => some (climb v rts w te g tks)
  | _, _ => none

/-- The steps of some choices. -/
def run (s : State) (choices : List Choice) : Option State := choices.foldlM (next v rts) s

end

/-! ## The verdict -/

/-- Some amount is left. Polygons are not looked at. -/
def notIntegral (format : String) (v : Views) (tx : MsgTx) (e : (_ : RElement) × Int64) :
    Checked Unit :=
  failIf (e.1.tokenType ≠ 3 ∧ e.2 ≠ 0)
    (.errorf ⟨format, [.hash (v.txHash tx), .int e.1.tokenType.toNat, .int e.2.toInt]⟩)

/-- After the loop. The two last loops range over the maps in the order `sh`. -/
def verdict (v : Views) (tx : MsgTx) (sh : Shuffle ((_ : RElement) × Int64)) (checkPolygon : Bool)
    (w : Work) : Checked Bool := do
  (sh.run w.sumVals.vals.entries).forM
    (notIntegral "sumVals: The Tx %s is not integral. Tokentype = %d val %d" v tx)
  (sh.run w.siblingVals.entries).forM
    (notIntegral "siblingVals: The Tx %s is not integral. Tokentype = %d val %d" v tx)
  return w.sumVals.vals.entries.length = 0 ∧ w.siblingVals.entries.length = 0 ∧ checkPolygon

/-- The orders of the range loops. -/
structure Orders where
  choices : List Choice
  last : Shuffle ((_ : RElement) × Int64)

/-- The check, for the orders of its range loops; none when they are not those of a run. -/
def quickCheckRight (v : Views) (tx : MsgTx) (orders : Orders) : Option (Checked Bool) :=
  match coversPolygon v tx with
  | .error e => some (.error e)
  | .ok checkPolygon =>
    match ioRTokens v tx with
    | .error e => some (.error e)
    | .ok (sumVals, rts) =>
      match run v rts (enter sumVals) orders.choices with
      | some (.finished w) => some (verdict v tx orders.last checkPolygon w)
      | some .undefined => some (fail rightUndefined)
      | _ => none

end Zent.Validate
