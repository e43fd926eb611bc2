import RainOS.Kalloc.Code

/-!
# Page tables

The page directories of `vm.c` over the words of kernel memory. A directory and a page table are pages
of 1024 entries; an entry holds the physical address of a page and, in its low 12 bits, its flags. The
kernel's `data`, where its read-only part ends, is fixed when it is linked. The flags the processor sets
in an entry are left out.
-/

namespace RainOS.Vm

open Kalloc

abbrev M := EStateM Halt Memory

def devspace : Nat := 0xFE000000

def kernlink : Nat := kernbase + extmem

abbrev npdentries : Nat := 1024

abbrev nptentries : Nat := 1024

def pteP : Nat := 0x001

def pteW : Nat := 0x002

def pteU : Nat := 0x004

def pdx (va : Nat) : Nat := va / 2 ^ 22 % npdentries

def ptx (va : Nat) : Nat := va / 2 ^ 12 % nptentries

def pteAddr (pte : Nat) : Nat := pte / pgsize * pgsize

def pteFlags (pte : Nat) : Nat := pte % pgsize

def Present (pte : Nat) : Prop := pte % 2 = 1

instance (pte : Nat) : Decidable (Present pte) := inferInstanceAs (Decidable (_ = _))

def setWord (a v : Nat) : M Unit :=
  modify fun m => { m with word := Function.update m.word a v }

def zeroPage (word : Nat → Nat) (v : Nat) : Nat → Nat := fun a =>
  if v ≤ a ∧ a < v + pgsize then 0 else word a

def memset0 (v : Nat) : M Unit := modify fun m => { m with word := zeroPage m.word v }

def copyPage (word : Nat → Nat) (dst src : Nat) : Nat → Nat := fun a =>
  if dst ≤ a ∧ a < dst + pgsize then word (src + (a - dst)) else word a

@[irreducible] def walkpgdir (pgdir va : Nat) (alloc : Bool) : M Nat := do
  let m ← get
  let pde := pgdir + 4 * pdx va
  if Present (m.word pde) then return p2v (pteAddr (m.word pde)) + 4 * ptx va
  if !alloc then return 0
  let pgtab ← kalloc
  if pgtab = 0 then return 0
  memset0 pgtab
  setWord pde (v2p pgtab ||| pteP ||| pteW ||| pteU)
  return pgtab + 4 * ptx va

def mapLoop (pgdir perm : Nat) : Nat → Nat → Nat → M Int
  | 0, _, _ => return 0
  | n + 1, a, pa => do
      let pte ← walkpgdir pgdir a true
      if pte = 0 then return -1
      let m ← get
      if Present (m.word pte) then throw (.panic "remap")
      setWord pte (pa ||| perm ||| pteP)
      mapLoop pgdir perm n ((a + pgsize) % 2 ^ 32) ((pa + pgsize) % 2 ^ 32)

@[irreducible] def mappages (pgdir va size pa perm : Nat) : M Int :=
  let a := pgrounddown va
  let last := pgrounddown ((va + size + (2 ^ 32 - 1)) % 2 ^ 32)
  mapLoop pgdir perm ((last + 2 ^ 32 - a) % 2 ^ 32 / pgsize + 1) a pa

structure Kmap where
  virt : Nat
  physStart : Nat
  physEnd : Nat
  perm : Nat

/-- `PHYADD`: the pages of the frame allocator's list. -/
def phyadd : Nat := pgsize * 8

/-- The kernel's mappings, which are present in every process's page table. -/
def kmap (data : Nat) : List Kmap :=
  [⟨kernbase, 0, extmem, pteW⟩, ⟨kernlink, v2p kernlink, v2p data, 0⟩, ⟨data, v2p data, phystop, pteW⟩,
    ⟨v2p phystop, phystop, phystop + phyadd, pteW⟩, ⟨devspace, devspace, 0, pteW⟩]

def mapKernel (pgdir : Nat) : List Kmap → M Int
  | [] => return 0
  | k :: rest => do
      let r ← mappages pgdir k.virt ((k.physEnd + 2 ^ 32 - k.physStart) % 2 ^ 32) k.physStart k.perm
      if r < 0 then return -1
      mapKernel pgdir rest

@[irreducible] def setupkvm (data : Nat) : M Nat := do
  let pgdir ← kalloc
  if pgdir = 0 then return 0
  memset0 pgdir
  if p2v phystop > devspace then throw (.panic "PHYSTOP too high")
  let r ← mapKernel pgdir (kmap data)
  if r < 0 then return 0
  return pgdir

def deallocLoop (pgdir oldsz : Nat) : Nat → Nat → M Unit
  | 0, _ => throw .spin
  | fuel + 1, a => do
      if a < oldsz then
        let pte ← walkpgdir pgdir a false
        if pte = 0 then deallocLoop pgdir oldsz fuel ((a + (nptentries - 1) * pgsize + pgsize) % 2 ^ 32)
        else
          let m ← get
          if Present (m.word pte) then
            if pteAddr (m.word pte) = 0 then throw (.panic "kfree")
            kfree (p2v (pteAddr (m.word pte)))
            setWord pte 0
          deallocLoop pgdir oldsz fuel ((a + pgsize) % 2 ^ 32)

@[irreducible] def deallocuvm (pgdir oldsz newsz : Nat) : M Nat := do
  if newsz ≥ oldsz then return oldsz
  deallocLoop pgdir oldsz (2 ^ 20 + 1) (pgroundup newsz)
  return newsz

/-- The loop of `allocuvm`, with the number of pages that are left; it ends early without a page. -/
def allocLoop (pgdir : Nat) : Nat → Nat → M Bool
  | 0, _ => return true
  | n + 1, a => do
      let mem ← kalloc
      if mem = 0 then return false
      memset0 mem
      let _ ← mappages pgdir a pgsize (v2p mem) (pteW ||| pteU)
      allocLoop pgdir n (a + pgsize)

@[irreducible] def allocuvm (pgdir oldsz newsz : Nat) : M Nat := do
  if newsz ≥ kernbase then return 0
  if newsz < oldsz then return oldsz
  if ← allocLoop pgdir ((newsz - pgroundup oldsz + pgsize - 1) / pgsize) (pgroundup oldsz) then
    return newsz
  else
    let _ ← deallocuvm pgdir newsz oldsz
    return 0

@[irreducible] def freevm (pgdir : Nat) : M Unit := do
  if pgdir = 0 then throw (.panic "freevm: no pgdir")
  let _ ← deallocuvm pgdir kernbase 0
  (List.range npdentries).forM fun i => do
    let m ← get
    if Present (m.word (pgdir + 4 * i)) then kfree (p2v (pteAddr (m.word (pgdir + 4 * i))))
  kfree pgdir

/-- The loop of `copyuvm`, with the number of pages that are left; it ends early without a page. -/
def copyLoop (d pgdir : Nat) : Nat → Nat → M Bool
  | 0, _ => return true
  | n + 1, i => do
      let pte ← walkpgdir pgdir i false
      if pte = 0 then throw (.panic "copyuvm: pte should exist")
      let m ← get
      if ¬Present (m.word pte) then throw (.panic "copyuvm: page not present")
      let mem ← kalloc
      if mem = 0 then return false
      modify fun m' => { m' with word := copyPage m'.word mem (p2v (pteAddr (m.word pte))) }
      let r ← mappages d i pgsize (v2p mem) (pteFlags (m.word pte))
      if r < 0 then return false
      copyLoop d pgdir n (i + pgsize)

@[irreducible] def copyuvm (data pgdir sz : Nat) : M Nat := do
  let d ← setupkvm data
  if d = 0 then return 0
  if ← copyLoop d pgdir ((sz + pgsize - 1) / pgsize) 0 then return d
  else
    freevm d
    return 0

def putBytes (word : Nat → Nat) (dst : Nat) (bytes : List UInt8) : Nat → Nat := fun a =>
  if a % 4 = 0 ∧ dst < a + 4 ∧ a < dst + bytes.length then
    Mem.word (fun i =>
      if dst ≤ a + i ∧ a + i < dst + bytes.length then bytes.getD (a + i - dst) 0
      else UInt8.ofNat (word a / 256 ^ i)) 4 0
  else word a

def translate (word : Nat → Nat) (pgdir va : Nat) : Option Nat :=
  let pde := word (pgdir + 4 * pdx va)
  let pte := word (p2v (pteAddr pde) + 4 * ptx va)
  if Present pde ∧ Present pte then some (p2v (pteAddr pte) + va % pgsize) else none

/-- The kernel address of a virtual address, when `cur` is the current directory. Without one the
processor traps. -/
def kaddr (cur va : Nat) : M Nat := do
  if va ≥ kernbase then return va
  let m ← get
  match translate m.word cur va with
  | some a => return a
  | none => throw (.panic "trap")

def memmove (cur dst : Nat) (bytes : List UInt8) : M Unit := do
  if bytes ≠ [] then
    let a ← kaddr cur dst
    modify fun m => { m with word := putBytes m.word a bytes }

@[irreducible] def inituvm (pgdir : Nat) (init : List UInt8) : M Unit := do
  if init.length ≥ pgsize then throw (.panic "inituvm: more than a page")
  let mem ← kalloc
  if mem = 0 then throw (.panic "trap")
  memset0 mem
  let _ ← mappages pgdir 0 pgsize (v2p mem) (pteW ||| pteU)
  memmove pgdir mem init

def clearU (pte : Nat) : Nat := if pte / pteU % 2 = 1 then pte - pteU else pte

@[irreducible] def clearpteu (pgdir uva : Nat) : M Unit := do
  let pte ← walkpgdir pgdir uva false
  if pte = 0 then throw (.panic "clearpteu")
  let m ← get
  setWord pte (clearU (m.word pte))

/-- Map user virtual address to kernel address. Without a table the entry is read at address 0. -/
@[irreducible] def uva2ka (cur pgdir uva : Nat) : M Nat := do
  let pte ← walkpgdir pgdir uva false
  let a ← kaddr cur pte
  let m ← get
  if ¬Present (m.word a) then return 0
  if m.word a / pteU % 2 = 0 then return 0
  return p2v (pteAddr (m.word a))

/-- The loop of `copyout`; every round copies a byte at least. -/
def copyoutLoop (cur pgdir : Nat) : Nat → Nat → List UInt8 → M Int
  | 0, _, _ => return 0
  | fuel + 1, va, buf => do
      if buf = [] then return 0
      let va0 := pgrounddown va
      let pa0 ← uva2ka cur pgdir va0
      if pa0 = 0 then return -1
      let n := pgsize - (va - va0)
      memmove cur ((pa0 + (va - va0)) % 2 ^ 32) (buf.take n)
      copyoutLoop cur pgdir fuel ((va0 + pgsize) % 2 ^ 32) (buf.drop n)

@[irreducible] def copyout (cur pgdir va : Nat) (buf : List UInt8) : M Int :=
  copyoutLoop cur pgdir buf.length va buf

end RainOS.Vm
