import Rpcsx.Data.Bytes

namespace Rpcsx.Tar

open Data Data.Bytes

-- Paths and names of files.
abbrev Name := List Byte

-- What save_directory uses of a file's attributes, besides its type and size.
structure Times where
  atime : Nat
  mtime : Nat
deriving DecidableEq, Repr

-- The entries of a directory, in the order in which the file system lists them.
inductive Forest where
  | nil
  | file (name : Name) (times : Times) (content : List Byte) (rest : Forest)
  | directory (name : Name) (times : Times) (children rest : Forest)
deriving DecidableEq, Repr

-- fs::dir_entry, with the bytes of the file that it names.
structure DirEntry where
  name : Name
  isDirectory : Bool
  times : Times
  content : List Byte := []
deriving DecidableEq, Repr

def delim : Byte := 0x2f

-- The UTF-8 bytes of the fullwidth dollar sign.
def ignoredMarker : Name := [0xef, 0xbc, 0x84]

-- Names made of dots only, and names with the marker in front.
def isSkipped (name : Name) : Bool := name.all (· = 0x2e) ∨ ignoredMarker <+: name

def entryPath (targetPath name : Name) : Name :=
  if targetPath.getLast? = some delim then targetPath ++ name else targetPath ++ (delim :: name)

def alignUp (value : Nat) : Nat := (value + 511) / 512 * 512

-- write_octal, most significant digit first.
def octalDigits (number : Nat) : List Byte :=
  if number < 8 then [Fin.ofNat 256 (0x30 + number)]
  else octalDigits (number / 8) ++ [Fin.ofNat 256 (0x30 + number % 8)]

-- Bytes written into a buffer of fixed size.
def overlay (buffer : List Byte) (offset : Nat) (data : List Byte) : List Byte :=
  (buffer.take offset ++ data ++ buffer.drop (offset + data.length)).take buffer.length

-- The path of an entry inside the archive; the source directory itself is called "/".
def savedPath (srcDirPos : Nat) (name : Name) : Name :=
  let path := (name.drop srcDirPos).dropWhile (· = delim)
  if path = [] then [delim] else path

-- At most 100 bytes of the path go to the name, and the 155 before them to the prefix.
def prefixSize (path : Name) : Nat := min (max path.length 100) 255 - 100

def nameSize (path : Name) : Nat := min path.length 255 - prefixSize path

def tarHeader (path : Name) (entry : DirEntry) : List Byte :=
  let header := overlay (List.replicate 512 0) 257 (ascii "ustar ")
  let header := overlay header 345 (path.take (prefixSize path))
  let header := overlay header 0 ((path.drop (prefixSize path)).take (nameSize path))
  let header := overlay header 124
    (octalDigits (if entry.isDirectory then 0 else entry.content.length))
  let header := overlay header 136 (octalDigits entry.times.mtime)
  let header := overlay header 500 (octalDigits entry.times.atime)
  overlay header 156 [if entry.isDirectory then 0x35 else 0x30]

-- An archive that only counts, and one that keeps what is written to it.
inductive Archive where
  | null (pos : Nat)
  | data (bytes : List Byte)
deriving DecidableEq, Repr

def Archive.pos : Archive → Nat
  | .null pos => pos
  | .data bytes => bytes.length

def Archive.isNull : Archive → Bool
  | .null _ => true
  | .data _ => false

-- The bytes that the function appends for a file and its path; none when it returns false.
abbrev ProcessFunc := List Byte → Name → Option (List Byte)

def pad (count : Nat) : List Byte := List.replicate (alignUp count - count) 0

def saveFile (func : Option ProcessFunc) (srcDirPos : Nat) (entry : DirEntry) (ar : Archive) :
    Archive :=
  if entry.content.length = 0 then ar
  else
    match func, ar with
    | none, .null pos => .null (pos + alignUp entry.content.length)
    | none, .data bytes => .data (bytes ++ (entry.content ++ pad entry.content.length))
    | some func, .null pos =>
        match func entry.content (entry.name.drop srcDirPos) with
        | none => .null pos
        -- The position has moved with the data; the padding is added to it.
        | some data => .null (pos + data.length + alignUp data.length)
    | some func, .data bytes =>
        match func entry.content (entry.name.drop srcDirPos) with
        | none => .data bytes
        | some data => .data (bytes ++ (data ++ pad data.length))

def saveHeader (srcDirPos : Nat) (entry : DirEntry) : Archive → Archive
  | .null pos => .null (pos + 512)
  | .data bytes => .data (bytes ++ tarHeader (savedPath srcDirPos entry.name) entry)

-- The loop over a directory. A subdirectory is appended to the list and saved by a call of its
-- own, which finds it there; an archive that keeps its data has no use for the list.
def saveEntries (func : Option ProcessFunc) (srcDirPos : Nat) (targetPath : Name) :
    Forest → Archive × List DirEntry → Archive × List DirEntry
  | .nil, state => state
  | .file name times content rest, (ar, entries) =>
      if isSkipped name then saveEntries func srcDirPos targetPath rest (ar, entries)
      else
        let entry : DirEntry := ⟨entryPath targetPath name, false, times, content⟩
        let ar := saveFile func srcDirPos entry (saveHeader srcDirPos entry ar)
        saveEntries func srcDirPos targetPath rest (ar, entries ++ [entry])
  | .directory name times children rest, (ar, entries) =>
      if isSkipped name then saveEntries func srcDirPos targetPath rest (ar, entries)
      else
        let entry : DirEntry := ⟨entryPath targetPath name, true, times, []⟩
        let entries := (if ar.isNull then entries else []) ++ [entry]
        saveEntries func srcDirPos targetPath rest
          (saveEntries func srcDirPos entry.name children (saveHeader srcDirPos entry ar, entries))

-- The pass over the entries that an evaluation has collected.
def saveEvaluated (func : Option ProcessFunc) (srcDirPos : Nat) (entries : List DirEntry)
    (ar : Archive) : Archive :=
  entries.foldl (fun ar entry =>
    let ar := saveHeader srcDirPos entry ar
    if entry.isDirectory then ar else saveFile func srcDirPos entry ar) ar

-- A source directory.
structure SourceDir where
  path : Name
  times : Times
  children : Forest

def SourceDir.entry (dir : SourceDir) : DirEntry := ⟨dir.path, true, dir.times, []⟩

-- None when a check of it fails.
def saveDirectory (dir : SourceDir) (func : Option ProcessFunc) (ar : Archive)
    (entries : List DirEntry) (hasEvaluatedResults : Bool) : Option (Archive × List DirEntry) :=
  let srcDirPos := dir.path.length
  let reuseEntries := ¬ar.isNull ∨ hasEvaluatedResults
  if reuseEntries ∧ entries = [] then none
  else if hasEvaluatedResults then
    if entries.all fun entry => dir.path.isPrefixOf entry.name then
      some (saveEvaluated func srcDirPos entries ar, entries)
    else none
  else
    match entries.getLast? with
    | none =>
        let entries := if ar.isNull then [dir.entry] else []
        some (saveEntries func srcDirPos dir.path dir.children
          (saveHeader srcDirPos dir.entry ar, entries))
    | some last =>
        if last.isDirectory then
          some (saveEntries func srcDirPos dir.path dir.children
            (saveHeader srcDirPos last ar, entries))
        else some (saveFile func srcDirPos { last with name := dir.path }
          (saveHeader srcDirPos last ar), entries)

end Rpcsx.Tar

namespace Rpcsx.Tar

open Data Data.Bytes

def umax : Nat := 2 ^ 64 - 1

def isOctalDigit (b : Byte) : Bool := 0x30 ≤ b.val ∧ b.val ≤ 0x37

def octalValue (digits : List Byte) : Nat :=
  digits.foldl (fun value digit => value * 8 + (digit.val - 0x30)) 0

-- std::from_chars of base 8, and a NUL or a space behind the digits.
def octalTextToU64 (text : List Byte) : Nat :=
  let digits := text.takeWhile isOctalDigit
  match text.dropWhile isOctalDigit with
  | [] => umax
  | terminator :: _ =>
      if terminator ≠ 0 ∧ terminator ≠ 0x20 then umax
      else if digits = [] ∨ umax < octalValue digits then umax
      else octalValue digits

-- What extract uses of a header.
structure TarEntry where
  name : Name
  size : Nat
  mtime : Nat
  atime : Nat
  filetype : Byte
deriving DecidableEq, Repr

-- emplace_single_entry for the header at an offset of an archive of the given size.
def emplaceSingleEntry (header : List Byte) (offset maxSize : Nat) : Option TarEntry :=
  if slice header 257 5 = ascii "ustar" then
    let size := octalTextToU64 (slice header 124 12)
    let prefixName := slice header 345 155
    let name := slice header 0 100
    if (name.head? ≠ some 0 ∨ prefixName.head? ≠ some 0) ∧ 512 ≤ umax - size ∧ size ≤ maxSize ∧
        offset ≤ maxSize - size then
      some {
        name := cString prefixName ++ cString name
        size := size
        mtime := octalTextToU64 (slice header 136 12)
        atime := octalTextToU64 (slice header 500 12)
        filetype := slice header 156 1 |>.headD 0 }
    else none
  else none

inductive FsNode where
  | file (times : Times) (content : List Byte)
  | directory (times : Times)
deriving DecidableEq, Repr

-- The files below the target directory, by the components of their path.
abbrev Fs := List Name → Option FsNode

def Fs.set (fs : Fs) (path : List Name) (node : FsNode) : Fs :=
  fun other => if other = path then some node else fs other

def components (name : Name) : List Name := (name.splitOn delim).filter (· ≠ [])

-- A new entry changes the modification time of its directory.
def addEntry (now : Nat) (path : List Name) (node : FsNode) (fs : Fs) : Option Fs :=
  if path = [] then some (fs.set [] node)
  else
    match fs path.dropLast with
    | some (.directory times) =>
        some ((fs.set path.dropLast (.directory { times with mtime := now })).set path node)
    | _ => none

def createDir (now : Nat) (fs : Fs) (path : List Name) : Option Fs :=
  match fs path with
  | some _ => some fs
  | none => addEntry now path (.directory ⟨now, now⟩) fs

def createPath (now : Nat) (path : List Name) (fs : Fs) : Option Fs :=
  if path = [] then createDir now fs []
  else
    match fs path.dropLast with
    | some (.directory _) => createDir now fs path
    | _ =>
        match createPath now path.dropLast fs with
        | none => none
        | some fs => createDir now fs path
termination_by path.length
decreasing_by
  have := List.length_pos_of_ne_nil (by assumption : path ≠ [])
  rw [List.length_dropLast]
  omega

-- A file opened with fs::rewrite, written and closed.
def writeFile (now : Nat) (path : List Name) (content : List Byte) (fs : Fs) : Option Fs :=
  match fs path with
  | some (.directory _) => none
  | some (.file times _) => some (fs.set path (.file { times with mtime := now } content))
  | none => addEntry now path (.file ⟨now, now⟩ content) fs

def utime (path : List Name) (times : Times) (fs : Fs) : Option Fs :=
  match fs path with
  | none => none
  | some (.file _ content) => some (fs.set path (.file times content))
  | some (.directory _) => some (fs.set path (.directory times))

def containsMarker (name : Name) : Bool := ignoredMarker <:+: name

def restoreTimes (path : List Name) (entry : TarEntry) (fs : Fs) : Option Fs :=
  let atime := if entry.atime = umax then entry.mtime else entry.atime
  if entry.mtime = umax then some fs else utime path ⟨atime, entry.mtime⟩ fs

-- One round of the loop of extract: none when it returns false.
def extractEntry (now : Nat) (entry : TarEntry) (content : List Byte) (fs : Fs) : Option Fs :=
  let shouldIgnore := containsMarker entry.name
  let path := components entry.name
  if entry.filetype = 0 ∨ entry.filetype = 0x30 then
    match createPath now path.dropLast fs with
    | none => none
    | some fs =>
        if shouldIgnore then some fs
        else (writeFile now path content fs).bind (restoreTimes path entry)
  else if entry.filetype = 0x35 then
    if shouldIgnore then some fs else (createPath now path fs).bind (restoreTimes path entry)
  else none

-- The entries of a stream one after the other, from an offset of the archive on; `clock` is the
-- time when the entry with its header at an offset is extracted.
def extractFrom (clock : Nat → Nat) (archive : List Byte) (offset : Nat) (fs : Fs) : Option Fs :=
  if offset < archive.length then
    if offset + 512 ≤ archive.length then
      match emplaceSingleEntry (slice archive offset 512) (offset + 512) archive.length with
      | none => some fs
      | some entry =>
          match extractEntry (clock offset) entry (slice archive (offset + 512) entry.size) fs with
          | none => none
          | some fs => extractFrom clock archive (offset + 512 + alignUp entry.size) fs
    -- Less than a header is left to read.
    else none
  else some fs
termination_by archive.length - offset

def targetDir (times : Option Times) : Fs :=
  fun path => if path = [] then times.map .directory else none

def extract (clock : Nat → Nat) (archive : List Byte) (target : Option Times) : Option Fs :=
  extractFrom clock archive 0 (targetDir target)

end Rpcsx.Tar
