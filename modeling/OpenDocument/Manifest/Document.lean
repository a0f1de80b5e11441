import OpenDocument.Manifest.Basic
import OpenDocument.Markup.Writer
import OpenDocument.Text.Base64
import OpenDocument.Text.Decimal
import OpenDocument.Vocabulary

/-!
# OpenDocument.Manifest.Document

The markup document of a manifest, as a sequence of calls on a markup writer. The root element
holds one element for the package itself, with path `/`, and one for each entry.
-/

namespace OpenDocument

open Markup (Call)

/-- A number as an attribute value. -/
def numberText (n : Nat) : String :=
  String.ofList (Text.decimal n)

/-- A byte string as an attribute value. -/
def base64Text (bs : Bytes) : String :=
  String.ofList ((Base64.encode bs).map fun b => Char.ofNat b.toNat)

/-- The element of a descriptor, as calls on a `Markup.Writer`. -/
def Descriptor.calls (d : Descriptor) : List Call :=
  [.start "manifest:encryption-data",
   .attr "manifest:checksum-type" d.checksumType,
   .attr "manifest:checksum" (base64Text d.checksum)]
  ++ (d.compressedSize.toList.map fun n => .attr "odpack:compressed-size" (numberText n.toNat))
  ++ [.start "manifest:algorithm",
      .attr "manifest:algorithm-name" d.algorithm,
      .attr "manifest:initialisation-vector" (base64Text d.initialisationVector),
      .stop,
      .start "manifest:start-key-generation",
      .attr "manifest:start-key-generation-name" d.startKeyGeneration,
      .attr "manifest:key-size" (numberText d.startKeySize.toNat),
      .stop,
      .start "manifest:key-derivation",
      .attr "manifest:key-derivation-name" d.keyDerivation,
      .attr "manifest:key-size" (numberText d.keySize.toNat),
      .attr "manifest:iteration-count" (numberText d.iterationCount.toNat),
      .attr "manifest:salt" (base64Text d.salt),
      .stop,
      .stop]

/-- The element of an entry. -/
def Entry.calls (e : Entry) : List Call :=
  [.start "manifest:file-entry",
   .attr "manifest:full-path" e.path,
   .attr "manifest:media-type" e.mediaType]
  ++ (e.size.toList.map fun n => .attr "manifest:size" (numberText n.toNat))
  ++ e.encryption.toList.flatMap Descriptor.calls
  ++ [.stop]

namespace Manifest

/-- Whether some entry states its `compressedSize`, which takes an attribute of a namespace of its
own. -/
def hasExtension (m : Manifest) : Bool :=
  m.entries.any fun e => e.encryption.any fun d => d.compressedSize.isSome

/-- The whole document, as calls on a `Markup.Writer`. -/
def calls (m : Manifest) : List Call :=
  [.declaration,
   .start "manifest:manifest",
   .attr "xmlns:manifest" Vocabulary.manifestNamespace]
  ++ (if m.hasExtension then [.attr "xmlns:odpack" Vocabulary.extensionNamespace] else [])
  ++ [.attr "manifest:version" Vocabulary.officeVersion,
      .start "manifest:file-entry",
      .attr "manifest:full-path" "/",
      .attr "manifest:version" Vocabulary.officeVersion,
      .attr "manifest:media-type" m.mediaType,
      .stop]
  ++ m.entries.flatMap Entry.calls

/-- The document of a manifest, which `render` makes of its `calls`. -/
def toXml (m : Manifest) : String :=
  Markup.render m.calls

end Manifest

end OpenDocument
