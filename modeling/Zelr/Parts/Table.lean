import Zelr.Fat.Mount

/-!
# Partition tables

`parts_scan` over a disk whose every sector may fail to read. GPT is asked first, with a checksum
over its header and one over its entries; MBR after it.
-/

namespace Zelr.Parts

open Fat

/-! ## The disk -/

/-- The disk the machine booted from. Every driver refuses one of no sectors, and counts no more
than a `u32` holds. -/
structure Disk where
  sectors : Nat
  sector : Nat → Option Bytes
  sectors_pos : 0 < sectors
  sectors_lt : sectors < 2 ^ 32

def blkRead (d : Disk) (lba count : Nat) : Option Bytes :=
  if count = 0 then none
  else ((List.range count).mapM fun i => d.sector (u32 (lba + i))).map List.flatten

/-! ## The checksum -/

def crcBit (c : UInt32) : UInt32 := (c >>> 1) ^^^ (0xEDB88320 &&& (0 - (c &&& 1)))

def crcByte (c : UInt32) (b : UInt8) : UInt32 := Nat.iterate crcBit 8 (c ^^^ b.toUInt32)

def crc32 (data : Bytes) : UInt32 := data.foldl crcByte 0xFFFFFFFF ^^^ 0xFFFFFFFF

/-! ## What is recorded -/

def PARTS_MAX : Nat := 16
def PART_NAME_MAX : Nat := 37

inductive Scheme
  | none
  | mbr
  | gpt
  deriving DecidableEq, Repr

/-- `part_t`. -/
structure Part where
  start : Nat
  sectors : Nat
  mbrType : UInt8
  efiSystem : Bool
  looksLikeFat : Bool
  name : Bytes
  deriving DecidableEq, Repr

def sectorLooksLikeFat (d : Disk) (lba : Nat) : Bool :=
  match blkRead d lba 1 with
  | none => false
  | some sec =>
    let spc := byteAt sec 13
    if byteAt sec 510 ≠ 0x55 ∨ byteAt sec 511 ≠ 0xAA then false
    else if u16At sec 11 ≠ SECTOR_SIZE then false
    else if spc = 0 ∨ spc &&& (spc - 1) ≠ 0 then false
    else byteAt sec 16 ≠ 0

def add (d : Disk) (table : List Part) (start sectors : Nat) (mbrType : UInt8) (esp : Bool)
    (name : Bytes) : List Part :=
  if PARTS_MAX ≤ table.length then table
  else table ++ [{
    start, sectors, mbrType
    efiSystem := esp
    looksLikeFat := sectorLooksLikeFat d start
    name := name.take (PART_NAME_MAX - 1) }]

/-! ## GPT -/

def u64At (sec : Bytes) (i : Nat) : Nat := u32At sec i + u32At sec (i + 4) * 2 ^ 32

/-- The fields of `gpt_header_t` that are read. -/
structure GptHeader where
  sig : Bytes
  headerSize : Nat
  headerCrc : Nat
  entryLba : Nat
  entryCount : Nat
  entrySize : Nat
  entryCrc : Nat
  deriving DecidableEq, Repr

def gptHeader (sec : Bytes) : GptHeader where
  sig := sec.take 8
  headerSize := u32At sec 12
  headerCrc := u32At sec 16
  entryLba := u64At sec 72
  entryCount := u32At sec 80
  entrySize := u32At sec 84
  entryCrc := u32At sec 88

/-- `sizeof(gpt_header_t)` and `sizeof(gpt_entry_t)`. -/
def GPT_HEADER_SIZE : Nat := 92
def GPT_ENTRY_SIZE : Nat := 128

/-- `gpt_entry_t`, without the fields nothing reads. -/
structure GptEntry where
  typeGuid : Bytes
  firstLba : Nat
  lastLba : Nat
  name : List Nat
  deriving DecidableEq, Repr

def gptEntry (array : Bytes) (entrySize i : Nat) : GptEntry :=
  let e := array.drop (i * entrySize)
  { typeGuid := e.take 16
    firstLba := u64At e 32
    lastLba := u64At e 40
    name := (List.range 36).map fun k => u16At e (56 + 2 * k) }

def GUID_EFI_SYSTEM : Bytes :=
  [0x28, 0x73, 0x2A, 0xC1, 0x1F, 0xF8, 0xD2, 0x11, 0xBA, 0x4B, 0x00, 0xA0, 0xC9, 0x3E, 0xC9, 0x3B]

def guidIsZero (g : Bytes) : Bool := g.all (· = 0)

def nameFromUtf16 (src : List Nat) : Bytes :=
  (src.takeWhile (· ≠ 0)).map fun c => if c < 0x20 ∨ 0x7E < c then 63 else UInt8.ofNat c

/-- What `%d` writes of a `u32`. -/
def decimal (n : Nat) : String := toString (if n < 2 ^ 31 then (n : Int) else n - 2 ^ 32)

def probe (sec : Bytes) : Bytes := put sec 16 [0, 0, 0, 0]

def GptHeader.arrayBytes (h : GptHeader) : Nat := u32 (h.entryCount * h.entrySize)

def GptHeader.arraySectors (h : GptHeader) : Nat :=
  u32 (h.arrayBytes + SECTOR_SIZE - 1) / SECTOR_SIZE

def gptHeaderError (sec : Bytes) (h : GptHeader) : Option String :=
  if h.headerSize < GPT_HEADER_SIZE ∨ SECTOR_SIZE < h.headerSize then
    some ("header size " ++ decimal h.headerSize)
  else if (crc32 ((probe sec).take h.headerSize)).toNat ≠ h.headerCrc then
    some "header checksum"
  else if h.entrySize < GPT_ENTRY_SIZE ∨ 4096 < h.entrySize then
    some ("entry size " ++ decimal h.entrySize)
  else if h.entryCount = 0 ∨ 256 < h.entryCount then
    some ("entry count " ++ decimal h.entryCount)
  else if h.entryLba < 2 ∨ 0xFFFFFFFF < h.entryLba then some "entry array out of reach"
  else if 256 * 128 < h.arrayBytes then some "entry array too large"
  else none

/-- The first half of `read_gpt`: the header and the entry array, both believed. `gpt_error` stays empty when the disk is
simply not GPT. -/
def loadGpt (d : Disk) : Except String (GptHeader × Bytes) :=
  match blkRead d 1 1 with
  | none => .error "header unreadable"
  | some sec =>
    let h := gptHeader sec
    if h.sig ≠ ascii "EFI PART" then .error ""
    else
      match gptHeaderError sec h with
      | some why => .error why
      | none =>
        match blkRead d (u32 h.entryLba) h.arraySectors with
        | none => .error "entry array unreadable"
        | some array =>
          if (crc32 (array.take h.arrayBytes)).toNat ≠ h.entryCrc then
            .error "entry array checksum"
          else .ok (h, array)

def gptRange (d : Disk) (e : GptEntry) : Option (Nat × Nat) :=
  if guidIsZero e.typeGuid then none
  else if e.lastLba < e.firstLba then none
  -- Past what a 32-bit sector number can name.
  else if 0xFFFFFFFF < e.firstLba ∨ 0xFFFFFFFF < e.lastLba then none
  else
    let start := u32 e.firstLba
    let sectors := u32 (e.lastLba - e.firstLba + 1)
    if d.sectors ≠ 0 ∧ (d.sectors ≤ start ∨ d.sectors - start < sectors) then none
    else some (start, sectors)

def gptSlot (d : Disk) (e : GptEntry) (i : Nat) (table : List Part) : List Part :=
  match gptRange d e with
  | none => table
  | some (start, sectors) =>
    let name := nameFromUtf16 e.name
    let name := if name = [] then ascii ("partition " ++ decimal (i + 1)) else name
    add d table start sectors 0 (e.typeGuid = GUID_EFI_SYSTEM) name

def gptSlots (d : Disk) (array : Bytes) (entrySize : Nat) : Nat → Nat → List Part → List Part
  | 0, _, table => table
  | left + 1, i, table =>
    if PARTS_MAX ≤ table.length then table
    else gptSlots d array entrySize left (i + 1) (gptSlot d (gptEntry array entrySize i) i table)

def readGpt (d : Disk) : Except String (List Part) :=
  match loadGpt d with
  | .error why => .error why
  | .ok (h, array) => .ok (gptSlots d array h.entrySize h.entryCount 0 [])

/-! ## MBR -/

def mbrTypeName (t : UInt8) : Bytes :=
  if t = 0x01 then ascii "fat12"
  else if t = 0x04 ∨ t = 0x06 ∨ t = 0x0E then ascii "fat16"
  else if t = 0x0B ∨ t = 0x0C then ascii "fat32"
  else if t = 0x07 then ascii "ntfs or exfat"
  else if t = 0x83 then ascii "linux"
  else if t = 0x82 then ascii "linux swap"
  else if t = 0xEF then ascii "efi system"
  else if t = 0x05 ∨ t = 0x0F then ascii "extended"
  else ascii "unknown"

/-- The four numbers of an entry of the boot sector. -/
structure MbrEntry where
  type : UInt8
  start : Nat
  sectors : Nat
  deriving DecidableEq, Repr

def mbrEntry (sec : Bytes) (i : Nat) : MbrEntry :=
  let e := sec.drop (446 + i * 16)
  ⟨byteAt e 4, u32At e 8, u32At e 12⟩

def mbrTaken (d : Disk) (e : MbrEntry) : Bool :=
  if e.type = 0 then false
  else if e.type = 0xEE then false
  else if e.start = 0 ∨ e.sectors = 0 then false
  else if d.sectors ≠ 0 ∧ (d.sectors ≤ e.start ∨ d.sectors - e.start < e.sectors) then false
  else ¬ (e.type = 0x05 ∨ e.type = 0x0F)

def mbrSlot (d : Disk) (table : List Part) (e : MbrEntry) : List Part :=
  if mbrTaken d e then add d table e.start e.sectors e.type (e.type = 0xEF) (mbrTypeName e.type)
  else table

def mbrEntries (sec : Bytes) : List MbrEntry := (List.range 4).map (mbrEntry sec)

def readMbr (d : Disk) : Option (List Part) :=
  match blkRead d 0 1 with
  | none => none
  | some sec =>
    if byteAt sec 510 ≠ 0x55 ∨ byteAt sec 511 ≠ 0xAA then none
    else if (mbrEntries sec).any (mbrTaken d) then
      some ((mbrEntries sec).foldl (mbrSlot d) [])
    else none

/-! ## The one entry point -/

structure State where
  table : List Part
  scheme : Scheme
  gptError : String
  deriving DecidableEq, Repr

/-- What is left after a scan of a disk, or with no disk. -/
def partsScan : Option Disk → State
  | none => ⟨[], .none, ""⟩
  | some d =>
    match readGpt d with
    | .ok table => ⟨table, .gpt, ""⟩
    | .error why =>
      match readMbr d with
      | some table => ⟨table, .mbr, why⟩
      | none => ⟨[], .none, why⟩

end Zelr.Parts
