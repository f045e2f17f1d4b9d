import LsoStore.Server

/-!
# Freeing the storage

What `free_server_infos` does with the storage when the dispatcher and the
workers have ended: `fu_storage_free`, `hu_free` and `fu_free_file_data` for each
item. A record that was freed before is a fault. The array of the table, which
nothing looks at any more, and the prints are left out.
-/

namespace LsoStore

open Proc

/-- The loop of `hu_free` over the items that it finds in the table. -/
def huFreeItems : List (List UInt8 × Nat) → ServerM Unit
  | [] => .ret ()
  | (_, file) :: rest =>
      deref file fun _ =>
      .get fun s =>
      .set (s.fuFreeFileData file) (huFreeItems rest)

def huFree : ServerM Unit :=
  .get fun s => if s.table.huIsEmpty then .ret () else huFreeItems s.table.items

def fuStorageFree : ServerM Unit :=
  .lock .storage do
    huFree
    .unlock .storage (.ret ())

end LsoStore
