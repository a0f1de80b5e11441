import OpenDocument.Deflate.Compress
import OpenDocument.Zip.Crc32
import OpenDocument.Zip.Record

/-!
# OpenDocument.Zip.Writer

Writing an archive entry by entry to a sink. An entry is listed first; then its local header goes
out, still without checksum and sizes, and its content. Stored bytes are written at once. Of
compressed bytes the full buffers are, and the rest follows when the next entry or the directory
begins; only then checksum and sizes are put into the local header. An entry that the sink refuses
stays listed with as much content as was written. If the sink refuses compressed bytes that were
held back, the archive is closed for good. Names and entries that have no room in the fields of
their headers are refused; many entries and far offsets are not, since the directory has 64 bits
for them.
-/

namespace OpenDocument.Zip

/-- What is known of the content that was written last. -/
structure Extent where
  /-- Where it begins in the archive. -/
  start : Nat := 0
  /-- Number of its bytes before compression. -/
  size : Nat := 0
  crc : UInt32 := 0
  deriving DecidableEq, Repr

/-- What is still to be done for the last entry. -/
inductive Stage where
  /-- Nothing. -/
  | settled
  /-- Write these compressed bytes, and then checksum and sizes. -/
  | pending (held : Bytes)
  /-- Its compressed bytes are lost, and the archive takes nothing more. -/
  | closed
  deriving DecidableEq, Repr

/-- An archive that was not finished yet, with what `settle` still has to do for its last entry. -/
structure Session (σ : Type) where
  sink : σ
  /-- Where the next piece goes. -/
  position : Nat := 0
  /-- The entries so far with the positions of their local headers, last one first. -/
  listed : List (Header × Nat) := []
  /-- The content of the last entry whose content was begun. -/
  content : Extent := {}
  stage : Stage := .settled

namespace Session

variable {σ : Type} [Sink σ]

/-- Write a piece behind the last one. -/
def append (s : Session σ) (bs : Bytes) : Except StreamFault Unit × Session σ :=
  if bs.isEmpty then (.ok (), s)
  else
    match Sink.write s.sink s.position bs with
    | (.ok (), sink) => (.ok (), { s with sink, position := s.position + bs.length })
    | (.error fault, sink) => (.error fault, { s with sink })

/-- Put checksum and sizes of `content` into the headers of the last entry. -/
def measureLast (s : Session σ) : Except StreamFault Unit × Session σ :=
  match s.listed with
  | [] => (.ok (), { s with stage := .settled })
  | (header, position) :: earlier =>
    let header := { header with
      crc := s.content.crc
      compressedSize := s.position - s.content.start
      size := s.content.size }
    let s := { s with listed := (header, position) :: earlier }
    match Sink.write s.sink (position + Header.measuredOffset) header.measured with
    | (.ok (), sink) => (.ok (), { s with sink, stage := .settled })
    | (.error fault, sink) => (.error fault, { s with sink })

/-- Do what is still to be done for the last entry. -/
def settle (s : Session σ) : Except StreamFault Unit × Session σ :=
  match s.stage with
  | .settled => (.ok (), s)
  | .closed => (.error .archiveClosed, s)
  | .pending held =>
    match s.append held with
    | (.ok (), s) => { s with stage := .pending [] }.measureLast
    | (.error fault, s) => (.error fault, { s with stage := .closed })

/-- Whether an entry of this name is `listed`. -/
def hasName (s : Session σ) (name : Bytes) : Bool :=
  s.listed.any fun e => e.1.name == name

/-- List an entry, and write its local header by `localBytes`, with checksum and sizes of zero. -/
def announce (s : Session σ) (name : Bytes) (method : Method) :
    Except StreamFault Unit × Session σ :=
  let header : Header := { name, method, crc := 0, compressedSize := 0, size := 0 }
  let s := { s with listed := (header, s.position) :: s.listed, stage := .pending [] }
  if maxShort < name.length then (.error .fieldOverflow, s)
  else
    match s.append header.localFields with
    | (.ok (), s) => s.append name
    | refused => refused

/-- Write the content of the entry announced last, as far as it is not held back. Compressed bytes
that the sink refuses are held back, too. -/
def fill (s : Session σ) (method : Method) (data packed : Bytes) :
    Except StreamFault Unit × Session σ :=
  let s := { s with content := { start := s.position } }
  let early := match method with
    | .stored => packed.length
    | .deflated => Deflate.handedOn data.length packed.length
  match s.append (packed.take early) with
  | (.ok (), s) =>
    (.ok (), { s with
      content := { s.content with size := data.length, crc := crc32 data }
      stage := .pending (packed.drop early) })
  | (.error fault, s) =>
    match method with
    | .stored => (.error fault, s)
    | .deflated => (.error fault, { s with stage := .pending packed })

/-- The bytes that the archive holds for content. -/
def pack (method : Method) (data : Bytes) : Bytes :=
  match method with
  | .stored => data
  | .deflated => Deflate.compress data

/-- Write an entry: `settle` the one before, `announce` this one, and `fill` it. -/
def write (s : Session σ) (path : String) (data : Bytes) (method : Method) :
    Except Fault Unit × Session σ :=
  match s.settle with
  | (.error fault, s) => (.error (.stream fault), s)
  | (.ok (), s) =>
    let name := path.toUTF8.toList
    let packed := pack method data
    if s.hasName name then (.error (.invalid (.duplicateName path)), s)
    else if maxLong < max data.length packed.length then (.error (.stream .entryTooLarge), s)
    else
      match s.announce name method with
      | (.error fault, s) => (.error (.stream fault), s)
      | (.ok (), s) =>
        match s.fill method data packed with
        | (.error fault, s) => (.error (.stream fault), s)
        | (.ok (), s) => (.ok (), s)

/-- The directory of some entries, by `Header.directoryBytes`. -/
def directoryOf (entries : List (Header × Nat)) : Bytes :=
  entries.flatMap fun (header, position) => header.directoryBytes position

/-- Whether the name of an entry has room in its headers. -/
def hasRoom (entry : Header × Nat) : Bool :=
  decide (entry.1.name.length ≤ maxShort)

/-- The version of the format that is needed to read all of some entries. -/
def versionOf (entries : List (Header × Nat)) : Nat :=
  entries.foldl (fun version entry => max version entry.1.version) 10

/-- Write the directory and the records at the end, `closingBytes`. An entry whose name has no room
ends the directory and spoils the archive, and so does an end of the directory that has no room in
64 bits. -/
def finish (s : Session σ) : Except Fault Unit × Session σ :=
  match s.settle with
  | (.error fault, s) => (.error (.stream fault), s)
  | (.ok (), s) =>
    let entries := s.listed.reverse
    let start := s.position
    match s.append (directoryOf (entries.takeWhile hasRoom)) with
    | (.error fault, s) => (.error (.stream fault), s)
    | (.ok (), s) =>
      let size := s.position - start
      if ¬entries.all hasRoom ∨ maxOffset < start + size then
        (.error (.stream .fieldOverflow), s)
      else
        match s.append (closingBytes (versionOf entries) entries.length size start) with
        | (.ok (), s) => (.ok (), s)
        | (.error fault, s) => (.error (.stream fault), s)

end Session

/-- An archive being written, by a `Session` until its directory is. -/
inductive Writer (σ : Type) where
  /-- It takes entries. -/
  | taking (session : Session σ)
  /-- It is complete. -/
  | complete (sink : σ)
  /-- Writing the directory failed. -/
  | spoiled

namespace Writer

variable {σ : Type}

/-- An archive without entries. -/
def new (sink : σ) : Writer σ :=
  .taking { sink }

/-- An archive in memory without entries. -/
def inMemory : Writer Memory :=
  new {}

/-- Whether the archive is complete. -/
def isFinished : Writer σ → Bool
  | complete _ => true
  | _ => false

/-- The sink of a complete archive. -/
def sink : Writer σ → Except Fault σ
  | complete sink => .ok sink
  | _ => .error .notFinished

variable [Sink σ]

/-- Write an entry. -/
def writeEntry (w : Writer σ) (path : String) (data : Bytes) (method : Method) :
    Except Fault Unit × Writer σ :=
  match w with
  | taking session =>
    let (result, session) := session.write path data method
    (result, taking session)
  | w => (.error .alreadyFinished, w)

/-- Write the directory. -/
def finish (w : Writer σ) : Except Fault Unit × Writer σ :=
  match w with
  | taking session =>
    match session.finish with
    | (.ok (), session) => (.ok (), complete session.sink)
    | (.error fault, _) => (.error fault, spoiled)
  | w => (.error .alreadyFinished, w)

end Writer

end OpenDocument.Zip
