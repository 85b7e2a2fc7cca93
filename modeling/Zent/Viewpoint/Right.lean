import Zent.Viewpoint.Flush

/-!
# The view of rights

`omega/viewpoint/right.go`: looking up a right or a set of rights, in the view and then in the
database, and adding the definitions of a transaction. Rights and sets share one map; what is
found under a hash can be either, and only some callers ask which.
-/

namespace Zent.Viewpoint

open Go

/-- `token.Unsplittable` -/
def Unsplittable : UInt8 := 2

/-- `token.Monitored` -/
def Monitored : UInt8 := 4

/-- `token.IsMonitorCall` -/
def IsMonitorCall : UInt8 := 16

namespace RightViewpoint

def lookupEntry (view : RightViewpoint) (p : Hash) : Option RightViewEntry := view.lookup p

def lookupRightEntry (view : RightViewpoint) (p : Hash) : Option RightEntry :=
  match view.lookupEntry p with
  | some ⟨.right e, _, _⟩ => some e
  | _ => none

def lookupRightSetEntry (view : RightViewpoint) (p : Hash) : Option (List Hash) :=
  match view.lookupEntry p with
  | some ⟨.rightSet rights, _, _⟩ => some rights
  | _ => none

end RightViewpoint

/-- An entry of the view or the database; what is found in the database is cached. -/
def fetchRightEntry (db view : RightViewpoint) (hash : Hash) :
    Option RightViewEntry × RightViewpoint :=
  match view.lookupEntry hash with
  | some e => (some e, view)
  | none =>
    match db.lookupEntry hash with
    | some e => (some e, view.insert hash e)
    | none => (none, view)

/-- `GetRight`. A nil pointer to a set is `none` here, as is the nil interface that stands for the
zero hash. -/
def getRight (db view : RightViewpoint) (hash : Hash) : Option RightViewEntry × RightViewpoint :=
  if hash = zerohash then (none, view) else fetchRightEntry db view hash

/-- What adding a right takes from outside: the hash of a definition, and whether there is storage
of a contract. -/
structure RightEnv where
  defHash : Definition → Hash
  contractExists : Bytes → Bool

/-- Whether the attributes of a right go together. A monitoring right must name a contract. -/
def soundAttrib (env : RightEnv) (desc : Bytes) (attrib : UInt8) : Bool :=
  !(attrib &&& (Monitored ||| Monitor) == Monitored ||| Monitor) &&
    !(attrib &&& (Monitored ||| Monitor ||| IsMonitorCall) == IsMonitorCall) &&
    !(attrib &&& (Monitor ||| Unsplittable) == Monitor) &&
    !(attrib &&& IsMonitorCall != 0 &&
      (decide (desc.length < 25) || desc.headD 0 &&& 64 != 64 ||
        !env.contractExists ((desc.drop 1).take 20)))

/-- `AddRight` -/
def addRight (env : RightEnv) (db view : RightViewpoint) (father : Hash) (desc : Bytes)
    (attrib : UInt8) : Outcome Empty (Bool × RightViewpoint) :=
  let h := env.defHash (.rightDef father desc attrib)
  match view.lookupRightEntry h with
  | some _ => .ok (true, view)
  | none =>
    if soundAttrib env desc attrib then
      if father = zerohash then
        .ok (true, view.insert h ⟨.right ⟨father, h, 0, desc, attrib⟩, true, false⟩)
      else
        match fetchRightEntry db view father with
        | (none, view) => .ok (false, view)
        | (some f, view) =>
          match f.item with
          | .rightSet _ => crash
          | .right f =>
            if f.attrib &&& Unsplittable != 0 then .ok (false, view)
            else if f.attrib &&& Monitor != 0 && attrib &&& Monitor == 0 then .ok (false, view)
            else
              .ok (true, view.insert h
                ⟨.right ⟨father, f.root, f.depth + 1, desc, attrib⟩, true, false⟩)
    else .ok (false, view)

/-- `AddRightSet` -/
def addRightSet (env : RightEnv) (view : RightViewpoint) (rights : List Hash) : RightViewpoint :=
  let h := env.defHash (.rightSetDef rights)
  match view.lookupRightSetEntry h with
  | some _ => view
  | none => view.insert h ⟨.rightSet rights, true, false⟩

end Zent.Viewpoint
