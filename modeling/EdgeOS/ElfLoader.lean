import EdgeOS.Lib.Traced
import EdgeOS.UserCopy
import EdgeOS.FileReads

namespace EdgeOS

open Lib

/-!
`src/elf/elf_loader.c`: a program and its interpreter are loaded into the memory of the running task.
The kernel reads and writes there without any check but the one on the numbers, so every access is
recorded.
-/

/-! ## Headers -/

/-- `ELF64_EHDR_SIZE`, `ELF64_PHDR_SIZE`, `ELF64_RELA_SIZE`, `ELF_IO_CHUNK`, `ELF_MAX_PHNUM`. -/
def elf64EhdrSize : ℕ := 64
def elf64PhdrSize : ℕ := 56
def elf64RelaSize : UInt64 := 24
def elfIoChunk : ℕ := 4096
def elfMaxPhnum : ℕ := 128

def ptLoad : UInt32 := 1
def ptDynamic : UInt32 := 2
def ptInterp : UInt32 := 3
def ptPhdr : UInt32 := 6

def etExec : UInt16 := 2
def etDyn : UInt16 := 3

/-- `EDGE_MAIN_ET_DYN_BASE`, `EDGE_MAIN_ET_DYN_BASE_LARGE`, `EDGE_INTERP_ET_DYN_BASE`, `USER_LOW_LIMIT_ADDR`. -/
def edgeMainEtDynBase : UInt64 := 0x400000
def edgeMainEtDynBaseLarge : UInt64 := 0x30000000
def edgeInterpEtDynBase : UInt64 := 0x20000000
def userLowLimitAddr : UInt64 := 0x800000

def rd64le (b : Bytes) (i : ℕ) : UInt64 := (rd32le b i).toUInt64 ||| (rd32le b (i + 4)).toUInt64 <<< 32

/-- `elf64_ehdr_t`. -/
structure ElfHeader where
  ident : Bytes
  type : UInt16
  machine : UInt16
  entry : UInt64
  phoff : UInt64
  phentsize : UInt16
  phnum : UInt16
  deriving DecidableEq, Repr

def elfHeaderAt (b : Bytes) : ElfHeader where
  ident := b.take 16
  type := rd16le b 16
  machine := rd16le b 18
  entry := rd64le b 24
  phoff := rd64le b 32
  phentsize := rd16le b 54
  phnum := rd16le b 56

/-- `elf64_phdr_t`. -/
structure ProgramHeader where
  type : UInt32
  offset : UInt64
  vaddr : UInt64
  filesz : UInt64
  memsz : UInt64
  deriving DecidableEq, Repr

def programHeaderAt (b : Bytes) (i : ℕ) : ProgramHeader where
  type := rd32le b i
  offset := rd64le b (i + 8)
  vaddr := rd64le b (i + 16)
  filesz := rd64le b (i + 32)
  memsz := rd64le b (i + 40)

def elfValid (eh : ElfHeader) : Bool :=
  eh.ident.take 5 = [0x7F, 69, 76, 70, 2] ∧ eh.machine = 62 ∧ (eh.type = etExec ∨ eh.type = etDyn)

/-- `user_addr_range_ok`, the same test as `user_range_ok`. -/
def userAddrRangeOk (addr len : UInt64) : Bool := userRangeOk addr len

/-! ## Accesses -/

/-- What the loader touches: a part of a file of `size` bytes, or memory of the task. -/
inductive Access
  | file (size off len : ℕ)
  | read (addr : UInt64) (len : ℕ)
  | write (addr : UInt64) (len : ℕ)
  deriving DecidableEq, Repr

/-- A file that `vfs_resolve` finds and that is no directory: its size in the inode, and `ops->read`. -/
structure VfsFile where
  size : ℕ
  reads : FileReads

/-- A file that is read as a whole. Its size is a `uint32_t`. -/
structure ElfFile where
  bytes : Bytes
  small : bytes.length < 2 ^ 32

def ElfFile.size (f : ElfFile) : ℕ := f.bytes.length

@[reducible] def ElfFile.vfs (f : ElfFile) : VfsFile where
  size := f.size
  reads :=
    { read := fun off n => some (bytesAt f.bytes off n)
      short := fun off n bs h => by
        rw [← Option.some.inj h]
        exact List.length_take_le _ _ }

instance : Coe ElfFile VfsFile := ⟨ElfFile.vfs⟩

def vfsFiles (files : Bytes → Option ElfFile) (path : Bytes) : Option VfsFile := (files path).map ElfFile.vfs

abbrev Load (α : Type) := Traced Memory Access α

/-- The loop of `vfs_pread_exact`. Where the file system gives nothing inside of the file, the rest of the buffer is
cleared. Each round but the last reads a byte, so that as many rounds as bytes are enough. -/
def VfsFile.preadLoop (f : VfsFile) (off len : ℕ) : ℕ → Bytes → Option Bytes
  | 0, out => some out
  | fuel + 1, out =>
    if out.length < len then
      match f.reads.read ((off + out.length) % 2 ^ 32) (len - out.length) with
      | none => none
      | some bs =>
        if bs.length = 0 then
          if (off + out.length) % 2 ^ 32 < f.size then some (out ++ zeros (len - out.length)) else none
        else f.preadLoop off len fuel (out ++ bs)
    else some out

def vfsPreadExact (f : VfsFile) (off len : ℕ) : Load Bytes := do
  if len = 0 then pure []
  else
    Traced.emit (.file f.size off len)
    match f.preadLoop off len len [] with
    | none => Traced.fail
    | some bs => pure bs

def Memory.stored (m : Memory) (addr : UInt64) (bs : Bytes) : Memory := fun a =>
  if (a - addr).toNat < bs.length then rd8 bs (a - addr).toNat else m a

/-- `memcpy` and `memset` to an address. -/
def storeBytes (addr : UInt64) (bs : Bytes) : Load Unit := do
  Traced.emit (.write addr bs.length)
  Traced.modify (Memory.stored · addr bs)

def Memory.word (m : Memory) (addr : UInt64) : UInt64 :=
  rd64le ((List.range 8).map fun i => m (addr + i.toUInt64)) 0

def loadWord (addr : UInt64) : Load UInt64 := do
  Traced.emit (.read addr 8)
  let m ← Traced.get
  pure (m.word addr)

/-! ## Segments -/

/-- The loop over the pieces of a segment, from `done` on. -/
def copySegment (f : VfsFile) (ph : ProgramHeader) (dst : UInt64) : ℕ → ℕ → Load Unit
  | 0, _ => pure ()
  | fuel + 1, done =>
    if done < ph.filesz.toNat then do
      let foff := ph.offset + done.toUInt64
      let mis := foff.toNat % elfIoChunk
      let n := min (ph.filesz.toNat - done) (elfIoChunk - mis)
      let bs ← vfsPreadExact f foff.toUInt32.toNat n
      storeBytes (dst + done.toUInt64) bs
      copySegment f ph dst fuel (done + n)
    else pure ()

def segmentOk (f : VfsFile) (bias : UInt64) (ph : ProgramHeader) : Bool :=
  (ph.offset + ph.filesz).toNat ≤ f.size ∧ ph.filesz ≤ ph.memsz ∧ userAddrRangeOk (bias + ph.vaddr) ph.memsz

/-- The loop over the segments; the result is `load_hi`. -/
def loadSegments (f : VfsFile) (bias : UInt64) : List ProgramHeader → UInt64 → Load UInt64
  | [], hi => pure hi
  | ph :: phs, hi =>
    if ph.type ≠ ptLoad then loadSegments f bias phs hi
    else if !segmentOk f bias ph then Traced.fail
    else do
      let dst := bias + ph.vaddr
      copySegment f ph dst ph.filesz.toNat 0
      if ph.filesz < ph.memsz then
        storeBytes (dst + ph.filesz) (List.replicate (ph.memsz - ph.filesz).toNat 0)
      loadSegments f bias phs (max hi (dst + ph.memsz))

/-! ## Relocations -/

/-- `DT_RELA`, `DT_RELASZ`, `DT_RELAENT`. -/
structure RelaTable where
  addr : UInt64 := 0
  sz : UInt64 := 0
  ent : UInt64 := elf64RelaSize

/-- The loop over the dynamic entries. After `2 ^ 60` of them it is back where it began. -/
def scanDynamic : ℕ → UInt64 → RelaTable → Load RelaTable
  | 0, _, _ => Traced.diverge
  | fuel + 1, dyn, t => do
    let tag ← loadWord dyn
    if tag = 0 then pure t
    else if tag = 7 then do
      let v ← loadWord (dyn + 8)
      scanDynamic fuel (dyn + 16) { t with addr := v }
    else if tag = 8 then do
      let v ← loadWord (dyn + 8)
      scanDynamic fuel (dyn + 16) { t with sz := v }
    else if tag = 9 then do
      let v ← loadWord (dyn + 8)
      scanDynamic fuel (dyn + 16) { t with ent := v }
    else scanDynamic fuel (dyn + 16) t

def wordBytes (v : UInt64) : Bytes := (List.range 8).map fun i => (v >>> (8 * i).toUInt64).toUInt8

/-- The loop over the relocations; 8 is `R_X86_64_RELATIVE`. -/
def applyRelas (bias ent : UInt64) : ℕ → UInt64 → Load Unit
  | 0, _ => pure ()
  | n + 1, r => do
    let info ← loadWord (r + 8)
    let off ← loadWord r
    let addend ← loadWord (r + 16)
    if info.toUInt32 ≠ 8 then applyRelas bias ent n (r + ent)
    else if !userAddrRangeOk (bias + off) 8 then Traced.fail
    else do
      storeBytes (bias + off) (wordBytes (bias + addend))
      applyRelas bias ent n (r + ent)

def edgeLoadRelativeRelocs (phs : List ProgramHeader) (bias : UInt64) : Load Unit :=
  match phs.find? fun ph => ph.type = ptDynamic with
  | none => pure ()
  | some ph => do
    let t ← scanDynamic (2 ^ 60) (bias + ph.vaddr) {}
    if t.addr = 0 ∨ t.sz = 0 ∨ t.ent < elf64RelaSize then pure ()
    else applyRelas bias t.ent (t.sz / t.ent).toNat (bias + t.addr)

/-! ## Images -/

/-- `edge_elf_loaded_t`. -/
structure ElfLoaded where
  loadBias : UInt64
  entry : UInt64
  phdr : UInt64 := 0
  phnum : UInt16
  loadHi : UInt64
  interpPath : Option Bytes := none

/-- The end of the segments of a position-independent program, which is to be loaded higher when it is
large. `none` is an overflow. -/
def relHi : List ProgramHeader → UInt64 → Option UInt64
  | [], hi => some hi
  | ph :: phs, hi =>
    if ph.type ≠ ptLoad then relHi phs hi
    else if ph.vaddr + ph.memsz < ph.vaddr then none
    else relHi phs (max hi (ph.vaddr + ph.memsz))

def loadBias (eh : ElfHeader) (phs : List ProgramHeader) (etDynBase : UInt64) : Option UInt64 :=
  if eh.type ≠ etDyn then some 0
  else if etDynBase ≠ edgeMainEtDynBase then some etDynBase
  else
    (relHi phs 0).map fun hi =>
      if userLowLimitAddr < edgeMainEtDynBase + hi then edgeMainEtDynBaseLarge else etDynBase

def ElfHeader.phBytes (eh : ElfHeader) : ℕ := eh.phnum.toNat * elf64PhdrSize

/-- The loop that looks for the program headers and the interpreter. -/
def findInterp (f : VfsFile) : List ProgramHeader → ElfLoaded → Load ElfLoaded
  | [], img => pure img
  | ph :: phs, img => do
    let img := if ph.type = ptPhdr then { img with phdr := img.loadBias + ph.vaddr } else img
    if ph.type ≠ ptInterp then findInterp f phs img
    else if ph.filesz < 2 ∨ 256 ≤ ph.filesz then Traced.fail
    else if f.size < (ph.offset + ph.filesz).toNat then Traced.fail
    else do
      let bs ← vfsPreadExact f ph.offset.toUInt32.toNat ph.filesz.toNat
      findInterp f phs { img with interpPath := some (bs.dropLast.takeWhile (· ≠ 0)) }

def phdrInSegments (eh : ElfHeader) (phs : List ProgramHeader) (bias : UInt64) : UInt64 :=
  match phs.find? fun ph => ph.type = ptLoad ∧ ph.offset ≤ eh.phoff ∧
      eh.phoff + eh.phBytes.toUInt64 ≤ ph.offset + ph.filesz with
  | none => 0
  | some ph => bias + ph.vaddr + (eh.phoff - ph.offset)

/-- `edge_load_elf_from_vfs` after its header is read. -/
def loadImage (f : VfsFile) (eh : ElfHeader) (etDynBase : UInt64) : Load ElfLoaded := do
  let bs ← vfsPreadExact f eh.phoff.toUInt32.toNat eh.phBytes
  let phs := (List.range eh.phnum.toNat).map fun i => programHeaderAt bs (i * elf64PhdrSize)
  match loadBias eh phs etDynBase with
  | none => Traced.fail
  | some bias => do
    let hi ← loadSegments f bias phs 0
    edgeLoadRelativeRelocs phs bias
    let img ← findInterp f phs { loadBias := bias, entry := bias + eh.entry, phnum := eh.phnum, loadHi := hi }
    let phdr := if img.phdr = 0 then phdrInSegments eh phs bias else img.phdr
    if phdr = 0 then Traced.fail else pure { img with phdr := phdr }

def headerOk (f : VfsFile) (eh : ElfHeader) : Bool :=
  elfValid eh ∧ eh.phentsize.toNat = elf64PhdrSize ∧ eh.phnum ≠ 0 ∧ eh.phnum.toNat ≤ elfMaxPhnum ∧
    (eh.phoff + eh.phBytes.toUInt64).toNat ≤ f.size

/-- `edge_load_elf_from_vfs`; `files` gives the file that a path names. -/
def edgeLoadElfFromVfs (files : Bytes → Option VfsFile) (path : Bytes) (etDynBase : UInt64) : Load ElfLoaded :=
  match files path with
  | none => Traced.fail
  | some f =>
    if f.size < elf64EhdrSize then Traced.fail
    else do
      let bs ← vfsPreadExact f 0 elf64EhdrSize
      if !headerOk f (elfHeaderAt bs) then Traced.fail else loadImage f (elfHeaderAt bs) etDynBase

/-- `edge_elf_image_t`. -/
structure ElfImage where
  entryRip : UInt64
  atPhdr : UInt64
  atPhnum : UInt16
  atEntry : UInt64
  atBase : UInt64
  mainLoadHi : UInt64

def elfLoaderExec (files : Bytes → Option VfsFile) (path : Bytes) : Load ElfImage := do
  let main ← edgeLoadElfFromVfs files path edgeMainEtDynBase
  let out : ElfImage :=
    { entryRip := main.entry, atPhdr := main.phdr, atPhnum := main.phnum, atEntry := main.entry, atBase := 0
      mainLoadHi := main.loadHi }
  match main.interpPath with
  | none => pure out
  | some interp =>
    if interp.head? ≠ some 47 then Traced.fail
    else do
      let img ← edgeLoadElfFromVfs files interp edgeInterpEtDynBase
      pure { out with entryRip := img.entry, atBase := img.loadBias }

end EdgeOS
