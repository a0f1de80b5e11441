import OpenDocument.Bytes

/-!
# OpenDocument.Stream

Byte streams. A source is known by what its reads give, one after the other; how its bytes are
cut into reads, and how often a read is interrupted, does not change what is read in the end.
A sink takes pieces of bytes at any position, over what is there or behind it, and may refuse any
piece.
-/

namespace OpenDocument

/-- What can go wrong with the bytes of a stream. -/
inductive StreamFault where
  /-- A value has no room in its field. -/
  | fieldOverflow
  /-- An entry has more bytes than an archive can state. -/
  | entryTooLarge
  /-- The bytes differ from their recorded checksum. -/
  | checksum
  /-- The bytes are not UTF-8. -/
  | encoding
  /-- The bytes are not a DEFLATE stream. -/
  | compression
  /-- The bytes end before their DEFLATE stream does. -/
  | truncation
  /-- An archive could not hand over what it held back and takes nothing more. -/
  | archiveClosed
  /-- The source or sink itself failed. -/
  | other (detail : String)
  deriving DecidableEq, Repr

/-- The wording of a fault. -/
def StreamFault.message : StreamFault → String
  | .fieldOverflow => "number too large to fit in target type"
  | .entryTooLarge => "Large file option has not been set"
  | .checksum => "Invalid checksum"
  | .encoding => "stream did not contain valid UTF-8"
  | .compression => "corrupt deflate stream"
  | .truncation => "incomplete deflate stream"
  | .archiveClosed => "ZipWriter was already closed"
  | .other detail => detail

/-! ## Sources -/

/-- What one read of a source gives. -/
inductive Read where
  /-- Some bytes; none at the end of the source. -/
  | data (bytes : Bytes)
  /-- Nothing yet: the read is to be repeated. -/
  | interrupted
  | failed (fault : StreamFault)
  deriving DecidableEq, Repr

/-- A source, as what its reads give; behind the last of them it has ended. -/
abbrev Source := List Read

/-- All bytes of a source, behind the pieces `done` in reverse. -/
def Source.collect (done : List Bytes) : Source → Except StreamFault Bytes
  | [] | .data [] :: _ => .ok done.reverse.flatten
  | .data bytes :: rest => Source.collect (bytes :: done) rest
  | .interrupted :: rest => Source.collect done rest
  | .failed fault :: _ => .error fault

/-- All bytes of a source, which `collect` joins. An interrupted read is repeated. -/
def Source.readAll (s : Source) : Except StreamFault Bytes :=
  s.collect []

/-- The source that gives a byte string in one read. -/
def Source.ofBytes (bs : Bytes) : Source :=
  [.data bs]

/-- A byte string is read as it is. -/
@[simp] theorem Source.readAll_ofBytes (bs : Bytes) : (Source.ofBytes bs).readAll = .ok bs := by
  cases bs <;> simp [Source.readAll, Source.ofBytes, Source.collect]

/-! ## Sinks -/

/-- Something that bytes can be written to, at any position. An answer with a fault means that
nothing of the piece was written. -/
class Sink (σ : Type) where
  write : σ → (position : Nat) → Bytes → Except StreamFault Unit × σ

/-- A sink that keeps everything in memory and refuses nothing. -/
structure Memory where
  written : Array UInt8 := #[]
  deriving DecidableEq, Repr

/-- What memory holds after a piece was written: the piece takes the place of what was there, and a
gap in front of it is filled with zeros. Compare `Sink.write`. -/
def Memory.write (m : Memory) (position : Nat) (bs : Bytes) : Memory :=
  if position = m.written.size then ⟨m.written ++ bs⟩
  else
    let front := m.written.extract 0 position
    let back := m.written.extract (position + bs.length) m.written.size
    ⟨front ++ Array.replicate (position - m.written.size) 0 ++ bs ++ back⟩

instance : Sink Memory where
  write m position bs := (.ok (), m.write position bs)

theorem Memory.toList_write (m : Memory) (position : Nat) (bs : Bytes) :
    (m.write position bs).written.toList =
      m.written.toList.take position ++ List.replicate (position - m.written.size) 0 ++ bs
        ++ m.written.toList.drop (position + bs.length) := by
  unfold Memory.write
  split
  · rename_i h
    subst h
    simp [List.take_of_length_le]
  · simp [List.take_of_length_le (l := m.written.toList.drop (position + bs.length))]

end OpenDocument
