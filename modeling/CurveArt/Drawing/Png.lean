import CurveArt.Drawing.Canvas

/-!
# Raster files

A canvas as a PNG file: the signature, a header with the size, the pixels, and an end mark. The
pixels stand in a compressed stream whose blocks are stored as they are.
-/

namespace CurveArt.Png

/-- A number in four bytes, the highest first. -/
def bigEndian (n : UInt32) : List UInt8 :=
  [(n >>> 24).toUInt8, (n >>> 16).toUInt8, (n >>> 8).toUInt8, n.toUInt8]

/-- A number in two bytes, the lower first. -/
def littleEndian (n : Nat) : List UInt8 :=
  [n.toUInt8, (n / 256).toUInt8]

def append (bytes : ByteArray) (more : List UInt8) : ByteArray :=
  more.foldl ByteArray.push bytes

/-! ## Check sums -/

/-- One bit of the cyclic check. -/
def checkBit (sum : UInt32) : UInt32 :=
  if sum &&& 1 = 1 then (sum >>> 1) ^^^ 0xEDB88320 else sum >>> 1

/-- One byte of the cyclic check. -/
def checkByte (sum : UInt32) (byte : UInt8) : UInt32 :=
  (List.range 8).foldl (fun sum _ => checkBit sum) (sum ^^^ byte.toUInt32)

/-- The cyclic check sum of a chunk. -/
def check (bytes : ByteArray) : UInt32 :=
  bytes.foldl checkByte 0xFFFFFFFF ^^^ 0xFFFFFFFF

/-- The sum of all bytes, and the sum of these sums, each modulo 65521. -/
def sums (bytes : ByteArray) : UInt32 :=
  let (a, b) := bytes.foldl (fun (a, b) byte =>
    let a := (a + byte.toUInt32) % 65521
    (a, (b + a) % 65521)) ((1, 0) : UInt32 × UInt32)
  (b <<< 16) ||| a

/-! ## Streams -/

/-- How many bytes a stored block holds at most. -/
def blockSize : Nat := 65535

/-- Appends the data from an index on as stored blocks, so many of them and then the last one. -/
def storeBlocks (data : ByteArray) : Nat → Nat → ByteArray → ByteArray
  | more, start, stream =>
    let stop := min (start + blockSize) data.size
    let length := stop - start
    let mark := if more = 0 then 1 else 0
    let header := mark :: littleEndian length ++ littleEndian (65535 - length)
    let stream := append stream header ++ data.extract start stop
    match more with
    | 0 => stream
    | more + 1 => storeBlocks data more stop stream

/-- A stream that holds the data in stored blocks, with its check sum. -/
def stream (data : ByteArray) : ByteArray :=
  append (storeBlocks data ((data.size - 1) / blockSize) 0 (append .empty [0x78, 0x01]))
    (bigEndian (sums data))

/-! ## Files -/

/-- Appends a chunk: the length of its data, its name, the data and a check sum over both. -/
def appendChunk (file : ByteArray) (name : String) (data : ByteArray) : ByteArray :=
  let body := name.toUTF8 ++ data
  append (append file (bigEndian data.size.toUInt32) ++ body) (bigEndian (check body))

/-- Width and height, and that a pixel has three channels of eight bits. -/
def header (canvas : Canvas) : ByteArray :=
  append .empty (bigEndian canvas.width.toUInt32 ++ bigEndian canvas.height.toUInt32 ++
    [8, 2, 0, 0, 0])

/-- The rows of a canvas, each marked as unfiltered. -/
def rows (canvas : Canvas) : ByteArray :=
  let length := 3 * canvas.width
  (List.range canvas.height).foldl (fun data row =>
    data.push 0 ++ canvas.bytes.extract (row * length) ((row + 1) * length)) .empty

def signature : List UInt8 :=
  [0x89, 0x50, 0x4E, 0x47, 0x0D, 0x0A, 0x1A, 0x0A]

/-- The file of a canvas. -/
def file (canvas : Canvas) : ByteArray :=
  let begun := appendChunk (append .empty signature) "IHDR" (header canvas)
  appendChunk (appendChunk begun "IDAT" (stream (rows canvas))) "IEND" .empty

end CurveArt.Png
