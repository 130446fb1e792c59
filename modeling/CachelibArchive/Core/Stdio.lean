import CachelibArchive.Core.ByteFile

/-!
# Streams between a program and a file

A stream may deliver bytes it has read earlier, so two streams on one file need
not agree on what it holds. Here is what a program can do with a stream,
whatever stands behind it, with two instances: the stream that reads the file
itself, and one that keeps the block it has read last.
-/

/-- The operations of a stream. -/
structure Stdio (σ : Type) where
  /-- Open the file, for writing or not. -/
  fopen : ByteFile → Bool → σ
  /-- The same stream when the file has been changed through others. -/
  onFile : σ → ByteFile → σ
  /-- What the file holds. -/
  file : σ → ByteFile
  ftell : σ → Nat
  fseeko : σ → Int → σ
  fseekCur : σ → Int → σ
  fseekEnd : σ → Int → σ
  fread : σ → Nat → List UInt8 × σ
  fwrite : σ → Bool → List UInt8 → σ
  fflush : σ → σ
  /-- What the file holds when the stream has been closed. -/
  fclose : σ → ByteFile

namespace Stdio

/-- Streams that keep nothing. -/
def plain : Stdio FileStream where
  fopen f writable := ⟨f, 0, writable⟩
  onFile s f := { s with file := f }
  file := FileStream.file
  ftell := FileStream.pos
  fseeko := FileStream.fseeko
  fseekCur := FileStream.fseekCur
  fseekEnd := FileStream.fseekEnd
  fread := FileStream.fread
  fwrite := FileStream.fwrite
  fflush := id
  fclose := FileStream.file

/-- A stream with the block it has read last. -/
structure Blocked where
  stream : FileStream
  start : Nat
  block : List UInt8

namespace Blocked

/-- A seek into the block keeps it; another one reads the block its target lies in, unless it
begins there. -/
def seek (size : Nat) (s : Blocked) (stream : FileStream) : Blocked :=
  let pos := stream.pos
  if s.start ≤ pos ∧ pos < s.start + s.block.length then { s with stream }
  else
    let start := pos / size * size
    let rest := stream.file.size - start
    ⟨stream, start, if pos = start then [] else stream.file.read start (min size rest)⟩

/-- A read is answered from the block as far as that goes, and then from the file. -/
def read (size : Nat) (s : Blocked) (n : Nat) : List UInt8 × Blocked :=
  let pos := s.stream.pos
  let kept := if s.start ≤ pos then s.block.drop (pos - s.start) else []
  if n ≤ kept.length then (kept.take n, { s with stream.pos := pos + n })
  else
    let start := pos + kept.length
    let rest := s.stream.file.size - start
    let bytes := s.stream.file.read start (min (n - kept.length) rest)
    (kept ++ bytes,
      ⟨{ s.stream with pos := start + bytes.length }, start,
        s.stream.file.read start (min size rest)⟩)

end Blocked

/-- Streams that read blocks of so many bytes, and forget the block when they write. -/
def blocked (size : Nat) : Stdio Blocked where
  fopen f writable := ⟨⟨f, 0, writable⟩, 0, []⟩
  onFile s f := { s with stream.file := f }
  file s := s.stream.file
  ftell s := s.stream.pos
  fseeko s off := s.seek size (s.stream.fseeko off)
  fseekCur s d := s.seek size (s.stream.fseekCur d)
  fseekEnd s d := s.seek size (s.stream.fseekEnd d)
  fread := Blocked.read size
  fwrite s accepted bs := ⟨s.stream.fwrite accepted bs, 0, []⟩
  fflush := id
  fclose s := s.stream.file

end Stdio
