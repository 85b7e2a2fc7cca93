import Zent.Viewpoint.Right
import Zent.Ovm.StateDB
import Zent.Ovm.VerifySigs

/-!
# Executing the contracts of a transaction

`ExecContract` (`omega/ovm/contractexec.go`), `Call` and `Create` (`ovm.go`), and what the
instructions of a contract do outside its own stack (`instructions.go`).

An execution of contract code is given as a tree (`Run`): the instructions it comes to, with
their operands evaluated, and for a call of another contract the execution of that contract.
Which instruction comes next depends on the code and on the contract's stack; every tree is
allowed here. An instruction that fails on its operands, or on the rights of the code, is the
leaf `error`. Everything the instructions change outside the stack is in `Vm`.
-/

namespace Zent.Ovm

open UInt32

open Go Viewpoint

/-! ## Transactions under execution -/

/-- `btcutil.Tx`. The hash is cached before anything is added. -/
structure Tx where
  msg : MsgTx
  hash : Hash
  hasOuts : Bool
  hasIns : Bool
  hasDefs : Bool
  executed : Bool
  deriving DecidableEq, Repr

/-- `wire.TxIn{}` -/
def separatorIn : TxIn := ⟨⟨zerohash, 0⟩, 0, 0⟩

/-- The separator among outputs. -/
def separatorOut : TxOut where
  tokenType := DefTypeSeparator
  value := none
  rights := none
  pkScript := []

namespace Tx

/-- The separator is added before the first input of a contract. -/
def openIns (s : Tx) : Tx :=
  if s.hasIns then s
  else { s with msg := { s.msg with txIn := s.msg.txIn ++ [separatorIn] }, hasIns := true }

/-- The input that `AddTxIn` makes, where there are `n` signature scripts. -/
def newTxIn (n : Nat) (t : OutPoint) (sig : Bytes) : TxIn :=
  if sig = [] then
    if t.index = 0 ∧ t.hash = zerohash then ⟨t, 0, 0xFFFFFFFF⟩ else ⟨t, 0xFFFFFFFF, 0xFFFFFFFF⟩
  else ⟨t, 0xFFFFFFFF, ofNat n⟩

def addTxIn (s : Tx) (t : OutPoint) (sig : Bytes) : Tx :=
  let s := s.openIns
  { s with
    msg := { s.msg with
      txIn := s.msg.txIn ++ [newTxIn s.msg.signatureScripts.length t sig]
      signatureScripts :=
        if sig = [] then s.msg.signatureScripts else s.msg.signatureScripts ++ [sig] } }

def openOuts (s : Tx) : Tx :=
  if s.hasOuts then s
  else { s with msg := { s.msg with txOut := s.msg.txOut ++ [separatorOut] }, hasOuts := true }

/-- The transaction, and the place of the output. -/
def addTxOut (s : Tx) (t : TxOut) : Tx × Nat :=
  let s := s.openOuts
  ({ s with msg := { s.msg with txOut := s.msg.txOut ++ [t] } }, s.msg.txOut.length)

def addDef (s : Tx) (d : Definition) : Tx :=
  let msg := if s.hasDefs then s.msg else { s.msg with txDef := s.msg.txDef ++ [.separatorDef] }
  { s with msg := { msg with txDef := msg.txDef ++ [d] }, hasDefs := true }

end Tx

/-! ## The machine -/

/-- A `SPEND` that was executed; nothing reads the record. -/
structure Spent where
  point : OutPoint
  /-- the signature operand; `none` for the null pointer -/
  sig : Option Bytes
  /-- the place of the input in the transaction -/
  place : Nat
  /-- the number of signature scripts before it -/
  count : Nat
  /-- the output belonged to the contract that was executed -/
  owns : Bool
  deriving DecidableEq, Repr

/-- The input that was added. -/
def Spent.txin (r : Spent) : TxIn := Tx.newTxIn r.count r.point (r.sig.getD [])

structure Vm where
  stateDB : Map Address StateDB
  /-- the contracts whose `stateDB` is marked as `transferrable` -/
  transferrable : List Address
  tokenTypes : Map UInt64 Address
  existingTokenTypes : Map UInt64 Address
  coinBase : Tx
  /-- the outputs in the view -/
  utxo : UtxoViewpoint
  /-- the rights in the view -/
  rights : RightViewpoint
  stepLimit : UInt32
  tx : Tx
  contractStack : List Address
  currentOutput : OutPoint
  trace : List Spent

/-- What does not change during a block: parameters, the database, and functions of code and
hashes. -/
structure VmEnv where
  sig : SigEnv
  right : RightEnv
  scriptHashAddrID : UInt8
  multiSigAddrID : UInt8
  db : Buckets
  utxoDb : UtxoViewpoint
  rightDb : RightViewpoint
  /-- the bucket of issued token types -/
  issued : Map UInt64 Address
  /-- the code a record `"code"` refers to -/
  codeAt : Bytes → Option Bytes
  /-- `ByteCodeValidator` -/
  validCode : Bytes → Option String
  ripemd160 : Bytes → Bytes
  /-- the record `"code"` of a new contract: where its code is in the transaction; `none` for a
  panic -/
  codeRecord : Tx → UInt32 → Bytes → Option Bytes
  hashString : Hash → String
  height : Int32

/-- What a computation of the machine ends with. It is `none` if it panics or does not return. -/
abbrev Ending (α : Type) : Type := Option (Except String α × Vm)

def MaxTxInPerMessage : Nat := 1024 * 1024 * 64 / 41 + 1

def MaxTxOutPerMessage : Nat := 1024 * 1024 * 64 / 9 + 1

section

variable (env : VmEnv) (self : Address)

/-- `stateDB.Exists` -/
def exists_ (really : Bool) (a : Address) : Bool :=
  match env.db.lookup a with
  | none => false
  | some acc =>
    !really || (acc.contract.get [0x73, 0x75, 0x69, 0x63, 0x69, 0x64, 0x65, 0x64]).isNone

/-- A change of the state of one contract; a nil dereference if it is not loaded. -/
def Vm.onState (vm : Vm) (a : Address) (f : StateDB → Option StateDB) : Option Vm :=
  ((vm.stateDB.lookup a).bind f).map fun d => { vm with stateDB := vm.stateDB.insert a d }

/-- `stateDB.Copy`. Flags and spendables do not come along, nor the address of a contract that
has destroyed itself. -/
def StateDB.copy (d : StateDB) : StateDB :=
  if d.suicided then { contract := 0, suicided := true }
  else { contract := d.contract, data := d.data, metas := d.metas }

/-- `OVM.GetMeta`: what is read from the database is cached. -/
def StateDB.readMeta (db : Buckets) (d : StateDB) (key : Key) : Option Bytes × StateDB :=
  if d.suicided then (none, d)
  else
    match d.metas.lookup key with
    | some t => (t.data, d)
    | none =>
      match d.getMeta db key with
      | none => (none, d)
      | some m => (some m, { d with metas := d.metas.insert key ⟨some m, some m⟩ })

/-- `"code"` -/
def codeKey : Key := [0x63, 0x6f, 0x64, 0x65]

/-- `"address"` -/
def addressKey : Key := [0x61, 0x64, 0x64, 0x72, 0x65, 0x73, 0x73]

/-- `"creator"` -/
def creatorKey : Key := [0x63, 0x72, 0x65, 0x61, 0x74, 0x6f, 0x72]

/-- `"mint"` -/
def mintKey : Key := [0x6d, 0x69, 0x6e, 0x74]

/-- `GetCode` -/
def getCode (a : Address) (vm : Vm) : Option (Option Bytes × Vm) :=
  (vm.stateDB.lookup a).map fun d =>
    let (r, d) := d.readMeta env.db codeKey
    (r.bind env.codeAt, { vm with stateDB := vm.stateDB.insert a d })

/-- `FetchUtxosMain` and `LookupEntry` -/
def fetchUtxo (p : OutPoint) (vm : Vm) : Option UtxoEntry × Vm :=
  match vm.utxo.lookupEntry p with
  | some e => (some e, vm)
  | none =>
    match env.utxoDb.lookupEntry p with
    | some e => (some e, { vm with utxo := vm.utxo.insert p e })
    | none => (none, vm)

/-- The script `GetUtxo` finds: of an output of the transaction itself, of the view or of the
database. A nil script is empty. -/
def getUtxo (p : OutPoint) (vm : Vm) : Option Bytes × Vm :=
  if p.hash = vm.tx.hash then ((vm.tx.msg.txOut[p.index.toNat]?).map TxOut.pkScript, vm)
  else
    let (e, vm) := fetchUtxo env p vm
    (e.map UtxoEntry.pkScript, vm)

/-- `AddCoinBase` -/
def Vm.addCoinBase (vm : Vm) (t : TxOut) : Vm :=
  let (cb, i) := vm.coinBase.addTxOut t
  let op : OutPoint := ⟨vm.coinBase.hash, ofNat i⟩
  { vm with coinBase := cb, utxo := vm.utxo.insert op (addTxOut vm.utxo op t false env.height) }

/-- `AddDef`: a right that is known is not added again. -/
def addDefinition (d : Definition) (coinbase : Bool) (vm : Vm) : Option Vm :=
  match getRight env.rightDb vm.rights (env.right.defHash d) with
  | (some _, rights) => some { vm with rights := rights }
  | (none, rights) =>
    let added : Option RightViewpoint :=
      match d with
      | .rightDef father desc attrib =>
        ((addRight env.right env.rightDb rights father desc attrib).map Prod.snd).toOption
      | .rightSetDef members => some (addRightSet env.right rights members)
      | _ => some rights
    added.map fun rights =>
      if coinbase then { vm with rights := rights, coinBase := vm.coinBase.addDef d }
      else { vm with rights := rights, tx := vm.tx.addDef d }

/-! ## Instructions -/

/-- Instructions, with their operands evaluated. -/
inductive Op where
  | load (key : Key)
  | store (key : Key) (val : Bytes)
  | del (key : Key)
  | meta_ (key : Key)
  | libLoad (d : Address)
  | spend (p : OutPoint) (sig : Option Bytes)
  | addDef (d : Definition) (coinbase : Bool)
  | addTxOut (t : TxOut)
  | getDefinition (hash : Hash)
  | getUtxo (p : OutPoint)
  | mint (tokentype : UInt64) (md : UInt64) (h : Hash) (right : Hash) (params : Nat)
  | suicide
  /-- an instruction that works on the contract's stack only -/
  | local_

/-- `evm.Spend`, and the record of it. -/
def Vm.spend (vm : Vm) (p : OutPoint) (sig : Option Bytes) (owns : Bool) : Vm :=
  { vm with
    tx := vm.tx.addTxIn p (sig.getD [])
    trace := vm.trace ++ [⟨p, sig, vm.tx.openIns.msg.txIn.length,
      vm.tx.msg.signatureScripts.length, owns⟩] }

/-- `negHash` stands for the coinbase. -/
def negHash : Hash := BitVec.allOnes 256

/-- The script of an output that a contract spends without a signature. -/
def spentScript (p : OutPoint) (vm : Vm) : Option (Option Bytes × Vm) :=
  match getUtxo env p vm with
  | (some pks, vm) => some (some pks, vm)
  | (none, vm) =>
    if p.hash = negHash ∨ p.hash = vm.coinBase.hash then
      (vm.coinBase.msg.txOut[p.index.toNat]?).map fun t => (some t.pkScript, vm)
    else some (none, vm)

/-- The output belongs to the contract: its script is a call of the contract, or, where it has no
script, it is among the spendables. -/
def owns (p : OutPoint) (vm : Vm) : Bool :=
  match spentScript env p vm with
  | some (some (b :: rest), _) => isContract b && rest.take 20 == addressBytes self
  | some _ => ((vm.stateDB.lookup self).map fun d => d.spendables.contains p).getD false
  | none => false

/-- `opSpend` -/
def opSpend (p : OutPoint) (sig : Option Bytes) (vm : Vm) : Ending Unit :=
  let owned := owns env self p vm
  if p.hash = zerohash ∧ sig = none then
    -- the branch does not return, so the instruction fails after it
    some (.error "Spend failed", vm.spend p sig owned)
  else if sig = none then
    match spentScript env p vm with
    | none => none
    | some (some (b :: rest), vm) =>
      if isContract b then
        if rest.length < 20 then none
        else if rest.take 20 = addressBytes self then some (.ok (), vm.spend p sig owned)
        else some (.error "Contract try to spend what does not belong to it.", vm)
      else some (.error "Contract try to spend what does not belong to it.", vm)
    | some (_, vm) =>
      match vm.stateDB.lookup self with
      | none => none
      | some d =>
        if d.spendables.contains p then
          let d := { d with spendables := d.spendables.filter (· != p) }
          some (.ok (), { vm with stateDB := vm.stateDB.insert self d }.spend p sig owned)
        else
          some (.error ("Contract try to spend what does not exist. UTXO = " ++
            env.hashString p.hash), vm)
  else some (.ok (), vm.spend p sig owned)

/-- `opAddTxOut` -/
def opAddTxOut (t : TxOut) (vm : Vm) : Ending Unit :=
  if t.tokenType ≠ DefTypeSeparator ∧
      (t.pkScript.length < 21 ∨ zeroaddr ((t.pkScript.drop 1).take 20)) then
    some (.error "Address is invalid.", vm)
  else
    match t.pkScript with
    | [] => none
    | b :: rest =>
      if isContract b ∧ rest.take 20 ≠ addressBytes self then
        some (.error "Contract may not add a txout outside scope", vm)
      else if ¬ isContract b ∧ t.tokenType ≠ DefTypeSeparator ∧
          ¬ (b = env.sig.pubKeyHashAddrID ∨ b = env.scriptHashAddrID ∨ b = env.multiSigAddrID) then
        some (.error "unknown address type", vm)
      else
        let (tx, seq) := vm.tx.addTxOut (if t.isSeparator then separatorOut else t)
        let vm := { vm with tx := tx }
        if isContract b then
          let op : OutPoint := ⟨vm.currentOutput.hash, ofNat seq⟩
          (vm.onState self fun d => some { d with spendables := d.spendables ++ [op] }).map
            fun vm => (.ok (), vm)
        else some (.ok (), vm)

/-- `binary.LittleEndian.Uint64` -/
def littleEndianUint64 (b : Bytes) : Option UInt64 :=
  if b.length < 8 then none
  else some ((b.take 8).foldr (fun x n => n <<< 8 ||| x.toUInt64) 0)

/-- `GetMint`: the token type of a contract and what it has issued, as the database has them. -/
def getMint (d : StateDB) : Option (Option (UInt64 × UInt64)) :=
  match d.getMeta env.db mintKey with
  | none => some none
  | some c => do
    let tokenType ← littleEndianUint64 c
    let issue ← littleEndianUint64 (c.drop 8)
    return some (tokenType, issue)

/-- The token that `opMint` issues, if any. -/
def mintedToken (tokentype md : UInt64) (h right : Hash) (params : Nat) :
    Except String (Option Token) :=
  let value : TokenValue :=
    if tokentype &&& 1 = 0 then .numToken md.toInt64 else .hashToken h
  let toissue : Bool := if tokentype &&& 1 = 0 then md != 0 else h != zerohash
  if tokentype &&& 2 = 2 then
    if params ≠ 4 then .error "Incorrect number of parameters for mint inst."
    else if right = zerohash then
      if toissue then .error "Zero hash as right set in mint inst." else .ok none
    else .ok (some ⟨tokentype, some value, some right⟩)
  else .ok (if toissue then some ⟨tokentype, some value, none⟩ else none)

/-- `setMint`, and then a new output of the coinbase. -/
def issue (tokentype md : UInt64) (h right : Hash) (params : Nat) (d : StateDB)
    (minted : Option (UInt64 × UInt64)) (vm : Vm) : Except String Unit × Vm :=
  if d.suicided || minted.any (·.1 != tokentype) then (.error "Unable to mint.", vm)
  else
    let issued := (minted.map Prod.snd).getD 0
    let d := d.setMeta env.db mintKey (putUint64 tokentype ++ putUint64 (issued + md))
    let vm := { vm with stateDB := vm.stateDB.insert self d }
    match mintedToken tokentype md h right params with
    | .error msg => (.error msg, vm)
    | .ok none => (.ok (), vm)
    | .ok (some token) =>
      (.ok (), vm.addCoinBase env { token with pkScript := contractAddr :: addressBytes self })

/-- The first mint of a contract takes the token type, if it has not been issued yet. -/
def Vm.claim (vm : Vm) (self : Address) (tokentype : UInt64) : Vm :=
  match env.issued.lookup tokentype with
  | some adr =>
    { vm with
      tokenTypes := vm.tokenTypes.insert tokentype adr
      existingTokenTypes := vm.existingTokenTypes.insert tokentype adr }
  | none => { vm with tokenTypes := vm.tokenTypes.insert tokentype self }

/-- The right to mint goes over from a contract that destroys itself. -/
def takeOver (self adr : Address) (tokentype : UInt64) (d : StateDB) (vm : Vm) : Ending Unit :=
  match vm.stateDB.lookup adr with
  | some t =>
    if adr ∈ vm.transferrable then
      (getMint env t).map fun minted =>
        let issued := (minted.map Prod.snd).getD 0
        let d := d.setMeta env.db mintKey (putUint64 tokentype ++ putUint64 issued)
        (.ok (), { vm with
          tokenTypes := vm.tokenTypes.insert tokentype self
          transferrable := vm.transferrable.filter (· != adr)
          stateDB := vm.stateDB.insert self d })
    else some (.error "The tokentype %d has already been used by another smart contract.", vm)
  | none => some (.error "The tokentype %d has already been used by another smart contract.", vm)

/-- `opMint` -/
def opMint (tokentype md : UInt64) (h right : Hash) (params : Nat) (vm : Vm) :
    Ending Unit :=
  if tokentype ≥ 0x10000000000 then
    some (.error ("The tokentype " ++ toString tokentype ++ " exceeds the max limit."), vm)
  else
    match vm.stateDB.lookup self with
    | none => none
    | some d =>
      match getMint env d with
      | none => none
      | some (some minted) => some (issue env self tokentype md h right params d (some minted) vm)
      | some none =>
        let vm := vm.claim env self tokentype
        let adr := (env.issued.lookup tokentype).getD self
        if adr = self then some (issue env self tokentype md h right params d none vm)
        else takeOver env self adr tokentype d vm

/-- `opLibLoad`: the library's state is loaded anew, whatever it was. -/
def opLibLoad (a : Address) (vm : Vm) : Ending Unit :=
  if exists_ env true a then
    (getCode env a { vm with stateDB := vm.stateDB.insert a (newStateDB a) }).map
      fun r => (.ok (), r.2)
  else some (.error "The library does not exist", vm)

/-- One instruction other than a call. -/
def runOp (vm : Vm) : Op → Ending Unit
  | .load key =>
    (vm.onState self fun d => some (d.getState env.db key).2).map fun vm => (.ok (), vm)
  | .store key val =>
    (vm.onState self fun d => (d.setState env.db key val).toOption).map fun vm => (.ok (), vm)
  | .del key =>
    (vm.onState self fun d => (d.deleteState env.db key).toOption).map fun vm => (.ok (), vm)
  | .meta_ key =>
    (vm.onState self fun d => some (d.readMeta env.db key).2).map fun vm => (.ok (), vm)
  | .libLoad d => opLibLoad env d vm
  | .spend p sig => opSpend env self p sig vm
  | .addDef d coinbase => (addDefinition env d coinbase vm).map fun vm => (.ok (), vm)
  | .addTxOut t => opAddTxOut env self t vm
  | .getDefinition hash =>
    some (.ok (), { vm with rights := (fetchRightEntry env.rightDb vm.rights hash).2 })
  | .getUtxo p => some (.ok (), (getUtxo env p vm).2)
  | .mint tokentype md h right params => opMint env self tokentype md h right params vm
  | .suicide => (vm.onState self fun d => some d.suicide).map fun vm => (.ok (), vm)
  | .local_ => some (.ok (), vm)

/-! ## Calls -/

/-- An execution of contract code. -/
inductive Run where
  /-- the code ends, with what it returns -/
  | done (ret : Bytes)
  /-- an instruction fails -/
  | error (msg : String)
  | op (o : Op) (next : Run)
  /-- `EXEC`: the execution of the callee, and what follows -/
  | exec (toAddr : Address) (pure_ : UInt8) (value : Option Token) (args : Bytes)
      (callee next : Run)
  /-- `SELFDESTRUCT` with a script that hands over the right to mint -/
  | transfer (script : Bytes) (callee next : Run)

/-- The part of `Create` after the constructor: where the code is, and who created it. -/
def recordCode (creator : Bytes) (r : Except String Bytes) (vm : Vm) :
    Ending Bytes :=
  match r with
  | .error _ => some (.error "Fail to initialize contract.", vm)
  | .ok ret =>
    if ret.length < 4 then some (.error "Fail to initialize contract.", vm)
    else
      match env.codeRecord vm.tx vm.currentOutput.index ret with
      | none => none
      | some br =>
        (vm.onState self fun d =>
          some ((d.setMeta env.db codeKey br).setMeta env.db creatorKey creator)).map
            fun vm => (.ok [], vm)

/-- The part of `Create` that runs the constructor `body`. -/
def construct (data creator : Bytes) (body : Vm → Ending Bytes) (vm : Vm) :
    Ending Bytes :=
  match vm.onState self fun d => some { d with fresh := true } with
  | none => none
  | some vm =>
    match env.validCode data with
    | some msg => some (.error msg, vm)
    | none =>
      if env.ripemd160 data ≠ addressBytes self then
        some (.error "contract address does not match code hash", vm)
      else
        match vm.onState self fun d => some (d.setMeta env.db addressKey (addressBytes self)) with
        | none => none
        | some vm => (body vm).bind fun r => recordCode env self creator r.1 r.2

/-- `Create`, where `body` is the execution of the constructor. -/
def create (data : Bytes) (body : Vm → Ending Bytes) (vm : Vm) : Ending Bytes :=
  if self ∉ vm.stateDB then some (.error "Contract address incorrect.", vm)
  else if exists_ env false self then some (.error "Contract already exists.", vm)
  else
    match vm.tx.msg.txIn with
    | [] => some (.error "Contract creation must have one input.", vm)
    | t :: _ =>
      match fetchUtxo env t.previousOutPoint vm with
      | (none, vm) => some (.error "Contract creation input is not available.", vm)
      | (some e, vm) =>
        let pk := (parsePkScript e.pkScript).getD ⟨0, [], [], []⟩
        if pk.version ≠ env.sig.pubKeyHashAddrID then
          some (.error "Contract creator must be a pubkeyhash address.", vm)
        else
          let creator := pk.version :: (pk.addr ++ List.replicate (20 - pk.addr.length) 0)
          construct env self data creator body vm

/-- `NewContract` loads the state of the contract. -/
def newContract (d : Address) (vm : Vm) : Option Vm :=
  if d ∈ vm.stateDB then some vm
  else if exists_ env true d then
    some { vm with stateDB := vm.stateDB.insert d (newStateDB d) }
  else none

/-- The snapshot of all contracts. -/
def copyAll (m : Map Address StateDB) : Map Address StateDB where
  entries := m.entries.map fun e => ⟨e.1, e.2.copy⟩
  nodupKeys := by
    have hkeys : (m.entries.map fun e => (⟨e.1, e.2.copy⟩ : (_ : Address) × StateDB)).keys =
        m.entries.keys := by
      simp only [List.keys, List.map_map]
      rfl
    simpa only [List.NodupKeys, hkeys] using m.nodupKeys

/-- The state that `Call` puts back on an error. -/
def Vm.restore (vm snapshot : Vm) : Vm :=
  { vm with
    stepLimit := snapshot.stepLimit
    stateDB := copyAll snapshot.stateDB
    transferrable := [] }

/-- `Call`, where `body` is the execution of the code. An error before the execution is returned
without putting anything back. -/
def call (d : Address) (method params : Bytes) (body : Vm → Ending Bytes) (vm : Vm) :
    Ending Bytes :=
  match method with
  | [] => none
  | op :: rest =>
    if 0x20 < op ∧ rest = [0, 0, 0] then
      some (.error "May not call system method directly.", vm)
    else
      match newContract env d vm with
      | none => some (.error "Contract does not exist", vm)
      | some loaded =>
        if method = [0, 0, 0, 0] then
          match create env d (params.drop 4) body loaded with
          | none => none
          | some (.ok ret, vm') => some (.ok ret, vm')
          | some (.error msg, vm') => some (.error msg, vm'.restore vm)
        else
          match getCode env d loaded with
          | none => none
          | some (none, vm') => some (.error "code not found", vm')
          | some (some _, vm') =>
            match body vm' with
            | none => none
            | some (.ok ret, vm') => some (.ok ret, vm')
            | some (.error msg, vm') => some (.error msg, vm'.restore vm)

/-- `value != nil && (value.TokenType&1 != 0 || value.Value.(*token.NumToken).Val != 0)` -/
def sends : Option Token → Option Bool
  | none => some false
  | some v =>
    if v.tokenType &&& 1 != 0 then some true
    else
      match v.value with
      | some (.numToken val) => some (val != 0)
      | _ => none

/-- `opExec` up to the call: the output for the callee. -/
def execOutput (toAddr : Address) (pure_ : UInt8) (value : Option Token) (args : Bytes) (vm : Vm) :
    Option Vm :=
  match if pure_ &&& 0x1F ≠ 0x1F then some true else sends value with
  | none => none
  | some adds =>
    if adds then
      value.map fun v =>
        let pks := contractAddr :: (addressBytes toAddr ++ (args ++ [0, 0, 0, 0]))
        let (tx, op) := vm.tx.addTxOut { v with pkScript := pks }
        { vm with tx := tx, currentOutput := ⟨vm.currentOutput.hash, ofNat op⟩ }
    else some vm

/-- `opExec`, where `body` is the execution of the callee. -/
def opExec (toAddr : Address) (pure_ : UInt8) (value : Option Token) (args : Bytes)
    (body : Vm → Ending Bytes) (vm : Vm) : Ending Unit :=
  match execOutput toAddr pure_ value args vm with
  | none => none
  | some vm' =>
    if toAddr ∈ vm.contractStack then some (.error "Circular contract calls.", vm')
    else if args.length < 4 then none
    else
      match call env toAddr (args.take 4) args body
          { vm' with contractStack := vm.contractStack ++ [toAddr] } with
      | none => none
      | some (r, vm') =>
        let vm' := { vm' with
          contractStack := vm'.contractStack.dropLast, currentOutput := vm.currentOutput }
        (vm'.onState toAddr fun d =>
          some { d with spendables := d.spendables ++ [vm.currentOutput] }).map
            fun vm' => (r.map fun _ => (), vm')

/-- The part of `opSuicide` that calls the contract that takes over the right to mint. -/
def handOver (self d : Address) (mtype : UInt64) (script method params : Bytes)
    (body : Vm → Ending Bytes) (vm : Vm) : Ending Unit :=
  let (tx, _) := vm.tx.addTxOut
    { tokenType := 0, value := some (.numToken 0), rights := none, pkScript := script }
  let vm := { vm with
    tx := tx
    contractStack := vm.contractStack ++ [d]
    tokenTypes := vm.tokenTypes.insert mtype self
    transferrable := self :: vm.transferrable }
  match call env d method params body vm with
  | none => none
  | some (r, vm) =>
    let r : Except String Unit :=
      if self ∈ vm.transferrable then .error "Mint right not transferred." else r.map fun _ => ()
    match r with
    | .error msg =>
      some (.error msg, { vm with
        transferrable := vm.transferrable.filter (· != self)
        tokenTypes := vm.tokenTypes.insert mtype self })
    | .ok () => (vm.onState self fun d => some d.suicide).map fun vm => (.ok (), vm)

/-- `opSuicide` with a script, where `body` is the execution of the contract that is called. -/
def opTransfer (script : Bytes) (body : Vm → Ending Bytes) (vm : Vm) :
    Ending Unit :=
  match (vm.stateDB.lookup self).bind (getMint env) with
  | none => none
  | some none => some (.error "Bad suicide instruction", vm)
  | some (some (mtype, _)) =>
    match parsePkScript script with
    | none => some (.error "Bad suicide instruction", vm)
    | some pk =>
      let d := addressOf pk.addr
      if zeroaddr pk.addr then some (.error "Incorrect pkScript format.", vm)
      else if !isContract pk.version then some (.error "Script is not a contract exec.", vm)
      else if d = self then some (.error "Trying to trans mint to itself.", vm)
      else
        match newContract env d vm with
        | none => some (.error "Contract does not exist.", vm)
        | some vm =>
          if d ∈ vm.contractStack then some (.error "Circular contract calls.", vm)
          else handOver env self d mtype script pk.method pk.excode body vm

/-- Every instruction counts down; the count wraps and is never below zero. -/
def Vm.tick (vm : Vm) : Vm := { vm with stepLimit := vm.stepLimit - 1 }

/-- The execution of code of the contract `self`. -/
def Run.interp : Run → Address → Vm → Ending Bytes
  | .done ret, _, vm => some (.ok ret, vm.tick)
  | .error msg, _, vm => some (.error msg, vm.tick)
  | .op o next, self, vm =>
    match runOp env self vm.tick o with
    | none => none
    | some (.error msg, vm) => some (.error msg, vm)
    | some (.ok (), vm) => next.interp self vm
  | .exec toAddr pure_ value args callee next, self, vm =>
    match opExec env toAddr pure_ value args (callee.interp toAddr) vm.tick with
    | none => none
    | some (.error msg, vm) => some (.error msg, vm)
    | some (.ok (), vm) => next.interp self vm
  | .transfer script callee next, self, vm =>
    match opTransfer env self script
        (callee.interp (addressOf (((parsePkScript script).map PkScript.addr).getD [])))
        vm.tick with
    | none => none
    | some (.error msg, vm) => some (.error msg, vm)
    | some (.ok (), vm) => next.interp self vm

/-! ## Contracts of a transaction -/

/-- The first loop: the state of every contract that is called is loaded, and a contract that is
created must be new. -/
def loadContracts : List TxOut → Vm → Except String Unit × Vm
  | [], vm => (.ok (), vm)
  | txOut :: rest, vm =>
    match parsePkScript txOut.pkScript with
    | none => (.error "Incorrect pkScript format.", vm)
    | some pk =>
      if zeroaddr pk.addr then (.error "Incorrect pkScript format.", vm)
      else if !isContract pk.version then loadContracts rest vm
      else
        let d := addressOf pk.addr
        let creation : Bool := pk.method == [0, 0, 0, 0]
        if d ∈ vm.stateDB then
          if creation then (.error "Attempt to recreate a contract.", vm)
          else loadContracts rest vm
        else if !exists_ env true d && !creation then (.error "Contract does not exist.", vm)
        else if exists_ env false d && creation then
          (.error "Attempt to recreate a contract.", vm)
        else loadContracts rest { vm with stateDB := vm.stateDB.insert d (newStateDB d) }

/-- The second loop over the outputs; `runs` are the executions of the contracts. -/
def callContracts (runs : Nat → Run) : List (TxOut × Nat) → Vm → Ending Bool
  | [], vm => some (.ok false, vm)
  | (txOut, i) :: rest, vm =>
    match parsePkScript txOut.pkScript with
    | none => callContracts runs rest vm
    | some pk =>
      if !isContract pk.version || pk.method == [] then callContracts runs rest vm
      else
        let d := addressOf pk.addr
        let op : OutPoint := ⟨vm.tx.hash, ofNat i⟩
        match call env d pk.method pk.excode ((runs i).interp env d)
            { vm with currentOutput := op, contractStack := [d] } with
        | none => none
        | some (.error msg, vm) => some (.error msg, vm)
        | some (.ok _, vm) =>
          match vm.onState d fun s => some { s with spendables := s.spendables ++ [op] } with
          | none => none
          | some vm => (callContracts runs rest vm).map fun r => (r.1.map fun _ => true, r.2)

/-- The transaction is put back. -/
def Vm.resetTx (vm : Vm) (tx : Tx) : Vm := { vm with tx := { tx with executed := vm.tx.executed } }

/-- `VerifySigs` on the inputs that were added, from the place `intx` on. -/
def verifyAdded (sched : List Act) (intx : Nat) (vm : Vm) : Option (Outcome String Unit) :=
  if ((vm.tx.msg.txIn.drop intx).any fun t => t.signatureIndex != 0xFFFFFFFF) &&
      !vm.tx.msg.isBtcL2 then
    verifySigs env.sig vm.tx.msg intx vm.utxo sched
  else some (.ok ())

/-- `MsgTx.Copy` dereferences the value of every output that is not a separator. -/
def copyable (tx : MsgTx) : Bool := tx.txOut.all fun t => t.isSeparator || t.value.isSome

/-- `ExecContract` -/
def execContract (sched : List Act) (runs : Nat → Run) (vm : Vm) : Ending Bool :=
  let vm := { vm with trace := [] }
  match vm.tx.msg.isCoinBase (ε := String) with
  | .error _ => none
  | .ok true => some (.ok false, vm)
  | .ok false =>
    match loadContracts env vm.tx.msg.txOut vm with
    | (.error msg, vm) => some (.error msg, vm)
    | (.ok (), loaded) =>
      if copyable vm.tx.msg then
        match callContracts env runs vm.tx.msg.txOut.zipIdx loaded with
        | none => none
        | some (.error msg, vm') => some (.error msg, vm'.resetTx vm.tx)
        | some (.ok executed, vm') =>
          if MaxTxOutPerMessage < vm'.tx.msg.txOut.length ∨
              MaxTxInPerMessage < vm'.tx.msg.txIn.length then
            some (.error "Tx in/out exceeds the max.", vm'.resetTx vm.tx)
          else
            match verifyAdded env sched vm.tx.msg.txIn.length vm' with
            | none => none
            | some (.error .panic) => none
            | some (.error (.error msg)) => some (.error msg, vm')
            | some (.ok ()) =>
              let anew := vm.tx.msg.txOut.any fun t =>
                match parsePkScript t.pkScript with
                | none => false
                | some pk => isContract pk.version && pk.method == [0, 0, 0, 0]
              some (.ok executed,
                { vm' with tx := { vm'.tx with executed := vm'.tx.executed || !anew } })
      else none

end

end Zent.Ovm
