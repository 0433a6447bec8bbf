import Mkit.Hash

/-!
# Zstandard Frames

Packs store large payloads as Zstandard frames. The compression library is not part of the
repository: it enters as a value of `Zstd`. What the repository adds is a walk over the frame
and block headers (`checkZstdFrameBounds`) that both decoding backends run first, so that a
frame with a large window, an oversized block or a reserved bit is refused before the library
sees it.

`Zstd.Lossless` is what the packs rely on: a frame the compressor writes is a single frame
that passes the walk and decompresses to the data.
-/

namespace Mkit

/-- The compression library. A build without a compressor has one that always declines. -/
structure Zstd where
  /-- Compress in one shot at the writer's level; `none` when that fails. -/
  compress : Bytes → Option Bytes
  /-- Length of the frame at the start of the input. -/
  findFrameCompressedSize : Bytes → Except String ℕ
  /-- Decompress into a buffer of the given capacity. -/
  decompressToBuffer : Bytes → ℕ → Except String Bytes

namespace Zstd

/-- The magic number that opens a frame. -/
def ZSTD_FRAME_MAGIC : Bytes := [0x28, 0xB5, 0x2F, 0xFD]

/-- Largest window of a frame, 8 MiB. -/
def ZSTD_WINDOW_LIMIT : ℕ := 8 <<< 20

/-- The byte at an offset, as a number. -/
def byteAt (malformed : String) (bytes : Bytes) (i : ℕ) : Except String ℕ :=
  match bytes[i]? with
  | some b => .ok b.toNat
  | none => .error malformed

/-- Bytes `[0, len)` as a little-endian number. -/
def leAt (malformed : String) (bytes : Bytes) (start len : ℕ) : Except String ℕ :=
  if bytes.length < start + len then .error malformed
  else .ok (Wire.ofLeBytes ((bytes.drop start).take len))

/-- Header length and content length of the literals section of a compressed block. -/
def literalsSection (block : Bytes) : Except String (ℕ × ℕ) := do
  let malformed := "malformed zstd block"
  let b0 ← byteAt malformed block 0
  let kind := b0 &&& 3
  let format := (b0 >>> 2) &&& 3
  if kind < 2 then
    -- raw or run-length literals: a 5-, 12- or 20-bit regenerated size
    let (len, regen) ←
      if format = 0 ∨ format = 2 then .ok (1, b0 >>> 3)
      else if format = 1 then do
        let b1 ← byteAt malformed block 1
        .ok (2, (b0 >>> 4) ||| (b1 <<< 4))
      else do
        let b1 ← byteAt malformed block 1
        let b2 ← byteAt malformed block 2
        .ok (3, (b0 >>> 4) ||| (b1 <<< 4) ||| (b2 <<< 12))
    .ok (len, if kind = 0 then regen else 1)
  else do
    -- compressed or treeless literals: two 10-, 14- or 18-bit sizes
    let (len, bits) := if format < 2 then (3, 10) else if format = 2 then (4, 14) else (5, 18)
    let h ← leAt malformed block 0 len
    .ok (len, (h >>> (4 + bits)) &&& ((1 <<< bits) - 1))

/-- The compression modes byte of a compressed block, or 0 when it has no sequences. -/
def ruzstdSequenceModes (block : Bytes) : Except String ℕ := do
  let malformed := "malformed zstd block"
  let (headerLen, contentLen) ← literalsSection block
  let seq := headerLen + contentLen
  let n ← byteAt malformed block seq
  if n = 0 then .ok 0
  else if n < 128 then byteAt malformed block (seq + 1)
  else if n = 255 then byteAt malformed block (seq + 3)
  else byteAt malformed block (seq + 2)

/-- Walk the blocks of a frame from `pos`. Every block has a header, so the length of the frame
is enough rounds. -/
def checkBlocks (frame : Bytes) (blockMaximum : ℕ) : ℕ → ℕ → Except String Unit
  | 0, _ => .error "malformed zstd frame"
  | n + 1, pos => do
    let malformed := "malformed zstd frame"
    let header ← leAt malformed frame pos 3
    let pos := pos + 3
    let size := header >>> 3
    if blockMaximum < size then
      .error "zstd block exceeds its window or the 128 KiB maximum"
    else if (header >>> 1) &&& 3 = 3 then .error "zstd block has its reserved type set"
    else do
      let bodyLen := if (header >>> 1) &&& 3 = 1 then 1 else size
      if frame.length < pos + bodyLen then .error malformed
      else do
        let body := (frame.drop pos).take bodyLen
        let modes ← if (header >>> 1) &&& 3 = 2 then ruzstdSequenceModes body else .ok 0
        if modes &&& 3 ≠ 0 then
          .error "zstd sequences section has its reserved mode bits set"
        else if header &&& 1 = 1 then .ok ()
        else checkBlocks frame blockMaximum n (pos + bodyLen)

/-- Inspect the frame header and the block headers of a frame. -/
def checkZstdFrameBounds (frame : Bytes) : Except String Unit := do
  let malformed := "malformed zstd frame"
  if ¬ ZSTD_FRAME_MAGIC <+: frame then .error malformed
  else do
    let descriptor ← byteAt malformed frame ZSTD_FRAME_MAGIC.length
    if descriptor &&& 0x08 ≠ 0 then .error "zstd frame descriptor has its reserved bit set"
    else do
      let singleSegment := descriptor &&& 0x20 ≠ 0
      let fcsLen := match descriptor >>> 6 with
        | 0 => if singleSegment then 1 else 0
        | 1 => 2
        | 2 => 4
        | _ => 8
      let fcsStart := ZSTD_FRAME_MAGIC.length + 1 + (if singleSegment then 0 else 1) +
        [0, 1, 2, 4].getD (descriptor &&& 3) 0
      let pos := fcsStart + fcsLen
      if frame.length < pos then .error malformed
      else do
        let window ←
          if singleSegment then do
            let size ← leAt malformed frame fcsStart fcsLen
            .ok (if fcsLen = 2 then size + 256 else size)
          else do
            let windowDescriptor ← byteAt malformed frame (ZSTD_FRAME_MAGIC.length + 1)
            let base := 1 <<< (10 + (windowDescriptor >>> 3))
            .ok (base + (base / 8) * (windowDescriptor &&& 7))
        if ZSTD_WINDOW_LIMIT < window then .error "zstd frame window exceeds the 8 MiB cap"
        else checkBlocks frame (min window (128 <<< 10)) frame.length pos

/-- What the packs rely on: the compressor writes a single frame, within the bounds the
decoders accept, that decompresses to the data. -/
structure Lossless (Z : Zstd) : Prop where
  /-- A frame is not followed by anything. -/
  single_frame {data frame : Bytes} (h : Z.compress data = some frame) :
    Z.findFrameCompressedSize frame = .ok frame.length
  /-- A frame's headers keep the bounds of the format and of the decoders. -/
  in_bounds {data frame : Bytes} (h : Z.compress data = some frame) :
    checkZstdFrameBounds frame = .ok ()
  /-- A frame gives the data back, in a buffer of its length. -/
  lossless {data frame : Bytes} (h : Z.compress data = some frame) :
    Z.decompressToBuffer frame data.length = .ok data

/-- A build without a compression backend: nothing is compressed, and no frame is read. -/
def unavailable : Zstd :=
  let message := "this build was compiled without the `pack-zstd` or `pack-ruzstd` feature"
  { compress := fun _ => none
    findFrameCompressedSize := fun _ => .error message
    decompressToBuffer := fun _ _ => .error message }

theorem lossless_unavailable : unavailable.Lossless where
  single_frame := by
    intro data frame h
    cases h
  in_bounds := by
    intro data frame h
    cases h
  lossless := by
    intro data frame h
    cases h

end Zstd

end Mkit
