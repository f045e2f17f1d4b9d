import LsoStore.ListUtils
import LsoStore.StringUtils

/-!
# Directories

`dir_utils.c`: the paths of the files and of the subdirectories of a directory,
put into two lists. What the kernel says of a directory is one list of entries
here, in the order `readdir` gives them whenever it is asked; `chdir`, `opendir`
and `stat` succeed exactly when there is such a list. Paths are absolute, so the
directory the process was in does not matter, and they are short of what
`mu_realloc` refuses.
-/

namespace LsoStore

/-- What the macros on `st_mode` tell apart; the rest are pipes and devices. -/
inductive FileMode where
  | dir
  | sock
  | lnk
  | reg
  | other
deriving DecidableEq

/-- A `struct dirent`, with what `stat` says of it. -/
structure Dirent where
  dName : List UInt8
  stMode : FileMode
deriving DecidableEq

/-- The directories there are, by their paths. -/
abbrev FileSystem := List UInt8 → Option (List Dirent)

def duFilenodetype : FileMode → Char
  | .dir => 'd'
  | .sock => 's'
  | .lnk => 'l'
  | .reg => '-'
  | .other => '-'

/-- `dirpath`, a slash and the name. -/
def entryPath (dirpath dName : List UInt8) : List UInt8 := dirpath ++ [47] ++ dName

/-- The loop over the entries of `dirpath`, with the paths still wanted. -/
def readEntries (dirpath : List UInt8) :
    List Dirent → Int → UList (List UInt8) → UList (List UInt8) →
      Int × UList (List UInt8) × UList (List UInt8)
  | [], nfilepaths, filelist, dirlist => (nfilepaths, filelist, dirlist)
  | file :: dir, nfilepaths, filelist, dirlist =>
      if nfilepaths = 0 then (nfilepaths, filelist, dirlist)
      else
        let filetype := duFilenodetype file.stMode
        if filetype = 'd' ∧ file.dName ≠ [46] ∧ file.dName ≠ [46, 46] then
          readEntries dirpath dir nfilepaths filelist
            (dirlist.luInsert (entryPath dirpath file.dName)).2
        else if filetype = '-' then
          let (res, filelist) := filelist.luInsert (entryPath dirpath file.dName)
          readEntries dirpath dir (if res ≠ -1 then nfilepaths - 1 else nfilepaths) filelist
            dirlist
        else readEntries dirpath dir nfilepaths filelist dirlist

/-- The result and the two lists. A null `dirpath` is `none`. -/
def duGetfilepathsFromDir (fs : FileSystem) (dirpath : Option (List UInt8)) (nfilepaths : Int)
    (filelist dirlist : UList (List UInt8)) :
    Int × UList (List UInt8) × UList (List UInt8) :=
  match dirpath with
  | none => (-1, filelist, dirlist)
  | some dirpath =>
      if nfilepaths = 0 then (0, filelist, dirlist)
      else
        match fs dirpath with
        | none => (-1, filelist, dirlist)
        | some dir =>
            let (rest, filelist, dirlist) :=
              readEntries dirpath dir nfilepaths filelist dirlist
            (nfilepaths - rest, filelist, dirlist)

end LsoStore
