import LsoStore.Proofs.Dialogues
import LsoStore.Store
import LsoStore.Transfer

/-!
# An application of the client's library

An application makes one call after the other over its connection. What it asks
for is told in terms of the store of owned files.
-/

namespace LsoStore

open Proc OwnedStore

/-- A call with what it leaves in the caller's buffer. -/
def ApiCall.run (disk : Disk) (rounds : Nat) :
    ApiCall → ClientM (Int × Option (List UInt8))
  | .readFile pathname size => do
      let (buf, _) ← Connected.readFile pathname size
      .ret (if buf.isSome then 0 else -1, buf)
  | call => do .ret (← call.prog disk rounds, none)

/-- The calls one after the other, whatever they are answered. -/
def makeCalls (disk : Disk) (rounds : Nat) :
    List ApiCall → ClientM (List (Int × Option (List UInt8)))
  | [] => .ret []
  | call :: rest => do
      let r ← call.run disk rounds
      let rs ← makeCalls disk rounds rest
      .ret (r :: rs)

/-- What a call asks for. `writeFile` takes the contents from the local file of
the same name. -/
def ApiCall.asks (disk : Disk) : ApiCall → Option (Op (List UInt8))
  | .openFile _ flags => some (.acquire (hasFlag flags oCreate))
  | .closeFile _ => some .release
  | .readFile _ _ => some .read
  | .writeFile pathname _ => (disk.read pathname).map fun data => .update fun _ => data
  | .appendToFile _ buf _ => buf.map fun buf => .update fun old => old ++ buf.1
  | _ => none

def asked (disk : Disk) (calls : List ApiCall) : List (List UInt8 × Op (List UInt8)) :=
  calls.filterMap fun call => (call.asks disk).map fun op => (call.pathname, op)

/-- What the caller gets to see of an answer. -/
def returned : Reply (List UInt8) → Int × Option (List UInt8)
  | .done => (0, none)
  | .value data => (0, some data)
  | _ => (-1, none)

/-- What the library and the server take for granted of a call: an empty file is
not read, since its contents never arrive, and only the client that has a file
open writes to it, since the server does not take in the length it is sent by
another one. -/
def ApiCall.Proper (disk : Disk) (client : Int)
    (t : OwnedStore.Store (List UInt8) Int (List UInt8)) : ApiCall → Prop
  | .openFile _ flags => flags.truncate 8 &&& (0xFC : BitVec 8) = 0
  | .closeFile _ => True
  | .readFile pathname _ => t pathname ≠ some ⟨some client, []⟩
  | .writeFile pathname _ => ∃ old data, t pathname = some ⟨some client, old⟩ ∧
      disk.read pathname = some data ∧ data ≠ [] ∧ data.length < muLimit
  | .appendToFile pathname buf _ => ∃ old data, t pathname = some ⟨some client, old⟩ ∧
      buf = some data ∧ data.1 ≠ [] ∧ old.length + data.1.length ≤ muLimit
  | _ => False

/-- Each call is proper when it is made. -/
def ProperCalls (disk : Disk) (client : Int) :
    List ApiCall → OwnedStore.Store (List UInt8) Int (List UInt8) → Prop
  | [], _ => True
  | call :: rest, t => call.Proper disk client t ∧ ∀ op, call.asks disk = some op →
      ProperCalls disk client rest (op.result [] t client call.pathname).2

/-- The files a call may add. -/
def ApiCall.newFiles : ApiCall → Nat
  | .openFile _ flags => if hasFlag flags oCreate then 1 else 0
  | _ => 0

/-- The bytes a call sends. -/
def ApiCall.newBytes (disk : Disk) (call : ApiCall) : Nat :=
  ((call.contents disk).getD []).length

end LsoStore
