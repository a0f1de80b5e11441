import OpenDocument.DocumentKind
import OpenDocument.Manifest.Reading
import OpenDocument.Package.Parts
import OpenDocument.Package.Plain
import OpenDocument.Protection.Recovery
import OpenDocument.Protection.Writer
import OpenDocument.Proofs.Protection.Protocol
import OpenDocument.Proofs.Protection.Bookkeeping
import OpenDocument.Proofs.Protection.Vectors
import OpenDocument.Proofs.Cipher
import OpenDocument.Proofs.Deflate.Bits
import OpenDocument.Proofs.Deflate.Tokens
import OpenDocument.Proofs.Deflate.Format
import OpenDocument.Proofs.Deflate.Codes
import OpenDocument.Proofs.Deflate.Reading
import OpenDocument.Proofs.Deflate.Streams
import OpenDocument.Proofs.Markup.Tags
import OpenDocument.Proofs.Markup.Pieces
import OpenDocument.Proofs.Markup.Rendering
import OpenDocument.Proofs.Text
import OpenDocument.Proofs.Manifest
import OpenDocument.Proofs.Protection.Recovery
import OpenDocument.Proofs.Manifest.Inverse
import OpenDocument.Proofs.Archive
import OpenDocument.Proofs.Protection.Disclosure
import OpenDocument.Proofs.Package.Run
import OpenDocument.Proofs.Protection.Substitution
import OpenDocument.Proofs.Zip.Fields
import OpenDocument.Proofs.Zip.Layout
import OpenDocument.Proofs.Zip.Ends
import OpenDocument.Proofs.Zip.Session
import OpenDocument.Proofs.Zip.Log
import OpenDocument.Proofs.Package.Filing
import OpenDocument.Proofs.Package.Finished
import OpenDocument.Proofs.Zip.Room
import OpenDocument.Proofs.Package.Protocol
import OpenDocument.Proofs.Protection.Refusals
import OpenDocument.Proofs.Package.Resumption
import OpenDocument.Proofs.Manifest.Nesting
import OpenDocument.Proofs.Protection.Framing
import OpenDocument.Proofs.Markup.Forest
import OpenDocument.Proofs.Markup.Conformance
import OpenDocument.Proofs.Manifest.Listing
import OpenDocument.Proofs.Package.Legibility
import OpenDocument.Proofs.Markup.Syntax
import OpenDocument.Proofs.Manifest.Headings
import OpenDocument.Proofs.Manifest.Sections
import OpenDocument.Proofs.Manifest.Variation
import OpenDocument.Proofs.Manifest.Structure
import OpenDocument.Proofs.Protection.Opening
import OpenDocument.Proofs.Protection.Validation
import OpenDocument.Proofs.Protection.Ledger
import OpenDocument.Proofs.Protection.Separation
import OpenDocument.Proofs.Package.Completion
import OpenDocument.Proofs.Markup.Escaping
import OpenDocument.Proofs.Markup.Replacement
import OpenDocument.Proofs.Protection.Passwords
import OpenDocument.Proofs.Hash.Derivation
