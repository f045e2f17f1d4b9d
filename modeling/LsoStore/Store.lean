import LsoStore.Lib.OwnedStore
import LsoStore.Proofs.Removal
import LsoStore.Proofs.Replay

/-!
# The server as a store with owners

What the server is for, in terms of `OwnedStore`: its entries are the stored
files under their paths, an open file is owned by the client that has it open,
and a request is a call on the entry it names. The answer of a request is read
off what the handler sent.
-/

namespace LsoStore

open Proc OwnedStore

/-- The client that has a file open; -1 stands for nobody. -/
def ownerOf (client : Int) : Option Int := if client = -1 then none else some client

def FileData.entry (f : FileData) : Entry Int (List UInt8) := ⟨ownerOf f.client, f.data⟩

/-- The stored files under their paths. -/
def FileStorage.entries (s : FileStorage) : OwnedStore.Store (List UInt8) Int (List UInt8) :=
  fun path => (s.ptrs.find? fun a => (s.file a).path = path).map fun a => (s.file a).entry

/-- What a request asks for, with the data it took in. -/
def askedFor (request : SMessage) (data : List UInt8) : Option (Op (List UInt8)) :=
  if opOf request = sapiOpenFile then some (.acquire (hasFlag request oCreate))
  else if opOf request = sapiCloseFile then some .release
  else if opOf request = sapiReadFile then some .read
  else if opOf request = sapiWriteFile then some (.update fun _ => data)
  else if opOf request = sapiAppendFile then some (.update fun old => old ++ data)
  else if opOf request = sapiRemoveFile then some .remove
  else none

/-- The last word that was sent. -/
def lastWord (tr : List (Event Mutex)) : Option SMessage :=
  tr.reverse.findSome? fun
    | .write (.word m) _ => some m
    | _ => none

/-- The last block that was sent, if nothing that was sent got lost. -/
def lastBlock (tr : List (Event Mutex)) : Option (List UInt8) :=
  if tr.any fun
      | .write _ ok => !ok
      | _ => false then none
  else some ((tr.findSome? fun
    | .write (.block bs) _ => some bs
    | _ => none).getD [])

/-- What a refusal says. -/
def refusal (tr : List (Event Mutex)) : Reply (List UInt8) :=
  match lastWord tr with
  | some m =>
      if m = sapiFnf then .missing
      else if m = sapiAlready ∨ m = sapiLocked then .owned
      else .failed
  | none => .failed

/-- What a request was answered. -/
def replyOf (op : Op (List UInt8)) (tr : List (Event Mutex)) : Reply (List UInt8) :=
  match op with
  | .update _ => if (taken tr).isSome then .done else refusal tr
  | .read =>
      if lastWord tr = some sapiSuccess then
        match lastBlock tr with
        | some bs => .value bs
        | none => .failed
      else refusal tr
  | _ => if lastWord tr = some sapiSuccess then .done else refusal tr

/-- The call that a request is, if it got as far as to name a file. -/
def callOf (request : SMessage) (client : Int) (tr : List (Event Mutex)) :
    Option (Call (List UInt8) Int (List UInt8)) := do
  let path ← readPath tr
  let op ← askedFor request ((taken tr).getD [])
  return ⟨client, path, op, replyOf op tr⟩

def ServedRequest.call (e : ServedRequest) : Option (Call (List UInt8) Int (List UInt8)) :=
  callOf e.request e.client e.trace

end LsoStore
