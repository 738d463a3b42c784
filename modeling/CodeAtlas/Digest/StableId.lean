/-
  Identifiers that depend on content only.  `contentHash` is the digest of a text and `shortHash` its
  beginning; `stableId` is the first half of the
  digest of several parts joined by NUL characters.
-/
import CodeAtlas.Digest.Sha256
import CodeAtlas.Text.Bytes
import CodeAtlas.Text.Hex

namespace CodeAtlas

/-- The text that is digested for an identifier: the parts with a NUL character between them. -/
def idPreimage (parts : List String) : String :=
  "\x00".intercalate parts

/-- The digest of a text in 64 hexadecimal digits. -/
def contentHash (content : String) : String :=
  Text.hex (Sha256.digest (Text.bytes content))

/-- The first 16 digits of the digest of a text. -/
def shortHash (content : String) : String :=
  .ofList ((contentHash content).toList.take 16)

/-- The identifier of a list of parts: 32 hexadecimal digits. -/
def stableId (parts : List String) : String :=
  .ofList ((contentHash (idPreimage parts)).toList.take 32)

end CodeAtlas
