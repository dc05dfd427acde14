import Blkcp.Blks.Compress
import Blkcp.Lib.Utf8
import Mathlib.Algebra.Group.Nat.Defs
set_option autoImplicit false

/-! Base64 of 48-byte digests (`encoding.rs`). -/

namespace Blkcp.Blks
open Blkcp.Lib

def base64Standard : List Char :=
  "ABCDEFGHIJKLMNOPQRSTUVWXYZabcdefghijklmnopqrstuvwxyz0123456789+/".toList

def base64UrlSafe : List Char :=
  "ABCDEFGHIJKLMNOPQRSTUVWXYZabcdefghijklmnopqrstuvwxyz0123456789-_".toList

/-- The four characters of three bytes. -/
def encodeB64Group (table : List Char) (b0 b1 b2 : Nat) : List Char :=
  let char (i : Nat) := table.getD i 'A'
  [char (b0 >>> 2), char ((b0 &&& 0x03) <<< 4 ||| b1 >>> 4),
    char ((b1 &&& 0x0F) <<< 2 ||| b2 >>> 6), char (b2 &&& 0x3F)]

def encodeB64Table (bytes : Digest) (table : List Char) : String :=
  String.ofList ((List.finRange 16).flatMap fun i =>
    encodeB64Group table bytes[i.val * 3].toNat bytes[i.val * 3 + 1].toNat
      bytes[i.val * 3 + 2].toNat)

/-- The places in a table of the four characters of three bytes. -/
def groupIndices (b0 b1 b2 : Nat) : List Nat :=
  [b0 / 4, b0 % 4 * 16 + b1 / 16, b1 % 16 * 4 + b2 / 64, b2 % 64]

/-- The places in a table of the characters of three bytes of a digest. -/
def groupAt (d : Digest) (i : Fin 16) : List Nat :=
  groupIndices d[i.val * 3].toNat d[i.val * 3 + 1].toNat d[i.val * 3 + 2].toNat

def encodeBase64 (bytes : Digest) : String := encodeB64Table bytes base64Standard

def encodeBase64Url (bytes : Digest) : String := encodeB64Table bytes base64UrlSafe

/-- One turn of the loop of `build_rev_table`. -/
def revEntry (table : Vector Byte 256) (i : Nat) : Vector Byte 256 :=
  (table.setIfInBounds (base64Standard.getD i 'A').toNat (BitVec.ofNat 8 i)).setIfInBounds
    (base64UrlSafe.getD i 'A').toNat (BitVec.ofNat 8 i)

def buildRevTable : Vector Byte 256 := (List.range 64).foldl revEntry (Vector.replicate 256 255)

def revTable (b : UInt8) : Byte := buildRevTable.get ⟨b.toNat, b.toNat_lt⟩

/-- One turn of the loop of `decode_base64`: the three bytes of four characters. -/
def decodeB64Group (c0 c1 c2 c3 : Byte) : Except String (List Byte) :=
  if c0 = 255 ∨ c1 = 255 ∨ c2 = 255 ∨ c3 = 255 then .error "invalid character in Base64 string"
  else .ok [c0 <<< 2 ||| c1 >>> 4, (c1 &&& 0x0F) <<< 4 ||| c2 >>> 2, (c2 &&& 0x03) <<< 6 ||| c3]

def decodeBase64 (s : String) : Except String Digest :=
  let bytesIn := Utf8.encode s.toList
  if bytesIn.length ≠ 64 then
    .error "invalid blks-384 Base64 string: must be exactly 64 characters"
  else do
    let rev (k : Nat) := revTable (bytesIn.getD k 0)
    let out ← (List.finRange 16).mapM fun i =>
      decodeB64Group (rev (i.val * 4)) (rev (i.val * 4 + 1)) (rev (i.val * 4 + 2))
        (rev (i.val * 4 + 3))
    .ok (Vector.ofFn fun j : Fin 48 => out.flatten.getD j.val 0)

end Blkcp.Blks
