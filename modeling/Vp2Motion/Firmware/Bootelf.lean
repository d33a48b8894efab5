import Vp2Motion.Firmware.Ff
import Vp2Motion.Memory.Store

namespace Vp2Motion.Firmware
open Memory

/-- The fields of `Elf32_Ehdr` that are used. -/
structure Ehdr where
  ident : List Byte
  entry : BitVec 32
  phoff : BitVec 32
  phentsize : BitVec 16
  phnum : BitVec 16

def ehdrSize : ℕ := 52

/-- The processor is big-endian. -/
def ehdr (m : Store 32) (a : BitVec 32) : Ehdr where
  ident := [m a, m (a + 1), m (a + 2), m (a + 3)]
  entry := word m (a + 24)
  phoff := word m (a + 28)
  phentsize := half m (a + 42)
  phnum := half m (a + 44)

def elfmag : List Byte := [0x7F, 0x45, 0x4C, 0x46]

/-- The fields of `Elf32_Phdr` that are used. -/
structure Phdr where
  type : BitVec 32
  offset : BitVec 32
  vaddr : BitVec 32
  filesz : BitVec 32
  memsz : BitVec 32

def phdrSize : ℕ := 32

def phdr (m : Store 32) (a : BitVec 32) : Phdr where
  type := word m a
  offset := word m (a + 4)
  vaddr := word m (a + 8)
  filesz := word m (a + 16)
  memsz := word m (a + 20)

def chunkSize : BitVec 32 := 32768

/-- The `int` variable `to_read`, as it is passed to `f_read`. -/
def toRead (filesz chunk : BitVec 32) : BitVec 32 :=
  if chunkSize.slt (filesz - chunk) then chunkSize else filesz - chunk

/-- Where the call is: at the head of one of its two loops, before the zero fill
of a segment, or at its end. The program that is started does not come back. -/
inductive Control where
  | segment (i : ℕ)
  | chunk (i : ℕ) (chunk : BitVec 32)
  | fill (i : ℕ)
  | returned (result : ℤ)
  | jumped (entry : BitVec 32)

/-- One `f_read` of a segment: where the file was sought to, where the bytes were to
go, and the count that was reported. -/
structure Read where
  offset : BitVec 32
  address : BitVec 32
  delivered : ℕ

/-- The variables of a call. The last two are no variables of the source: they
hold the counts that it lets `f_read` report, of `buf` and of the segments. -/
structure Loader (σ : Type) where
  mem : Store 32
  fil : σ
  phOffset : BitVec 32
  phNum : ℕ
  phSize : BitVec 32
  control : Control
  count : ℕ
  log : List Read

variable {σ : Type} (fs : Ff σ) (buf : BitVec 32)

namespace Loader

/-- The address of program header `i`, in `int` arithmetic. -/
def phdrAddress (s : Loader σ) (i : ℕ) : BitVec 32 :=
  buf + s.phOffset + s.phSize * BitVec.ofNat 32 i

/-- The headers are read from `buf` every time they are used. -/
def phdr (s : Loader σ) (i : ℕ) : Phdr := Firmware.phdr s.mem (s.phdrAddress buf i)

end Loader

/-- The call up to the loop over the program headers. -/
def openElf (mem : Store 32) (fil : σ) : Loader σ :=
  let opened := fs.fOpen fil
  if opened.1 ≠ .ok then
    ⟨mem, opened.2, 0, 0, 0, .returned (-1), 0, []⟩
  else
    let read := fs.fRead (BitVec.ofNat 32 mmcBlockSize) opened.2
    let mem := put mem buf read.2.1
    let header := ehdr mem buf
    if read.1 ≠ .ok ∨ header.ident ≠ elfmag then
      ⟨mem, read.2.2, 0, 0, 0, .returned (-1), read.2.1.length, []⟩
    else
      ⟨mem, read.2.2, header.phoff, header.phnum.toNat, header.phentsize.setWidth 32,
        .segment 0, read.2.1.length, []⟩

/-- One pass of the loop over the chunks of a segment. -/
def readChunk (p : Phdr) (i : ℕ) (chunk : BitVec 32) (s : Loader σ) : Loader σ :=
  let sought := fs.fLseek (p.offset + chunk) s.fil
  if sought.1 ≠ .ok then { s with fil := sought.2, control := .returned (-1) }
  else
    let read := fs.fRead (toRead p.filesz chunk) sought.2
    { s with
      mem := put s.mem (p.vaddr + chunk) read.2.1
      fil := read.2.2
      control := if read.1 ≠ .ok then .returned (-1) else .chunk i (chunk + chunkSize)
      log := s.log ++ [⟨p.offset + chunk, p.vaddr + chunk, read.2.1.length⟩] }

def step (s : Loader σ) : Loader σ :=
  match s.control with
  | .segment i =>
    if i < s.phNum then
      let p := s.phdr buf i
      if p.type ≠ 1 then { s with control := .segment (i + 1) }
      else if 0 < p.filesz then { s with control := .chunk i 0 }
      else { s with control := .fill i }
    else { s with control := .jumped (ehdr s.mem buf).entry }
  | .chunk i chunk =>
    let p := s.phdr buf i
    if chunk < p.filesz then readChunk fs p i chunk s else { s with control := .fill i }
  | .fill i =>
    let p := s.phdr buf i
    { s with
      mem := if p.filesz < p.memsz then
        fill s.mem (p.vaddr + p.filesz) 0 (p.memsz - p.filesz).toNat else s.mem
      control := .segment (i + 1) }
  | .returned _ => s
  | .jumped _ => s

/-- The call after `n` steps. -/
def bootelf (mem : Store 32) (fil : σ) (n : ℕ) : Loader σ :=
  (step fs buf)^[n] (openElf fs buf mem fil)

end Vp2Motion.Firmware
