import RainOS.Fs.Cache
import RainOS.Fs.Syscall
import RainOS.Lib.Triple

/-!
# Specifications of the block layer

`Spec` says what a piece of file system code does to a sound state. Whatever the state, the code keeps
the flags of the inode cache right and adds to the histories of `balloc` and `iput` only calls that
behave as stated here. The pre- and postconditions count while every call of `balloc` so far has found
the data region not full, or the whole disk full.
-/

namespace RainOS.Fs

open BlockStore Function

def BallocCall.Met (sb : Superblock) (c : BallocCall) : Prop :=
  (∃ b < sb.logStart, used sb c.before b = false) ∨ ∀ b < sb.size, used sb c.before b = true

/-- The call returned a data block, or it panicked and no data block was free. -/
def BallocCall.Right (sb : Superblock) (c : BallocCall) : Prop :=
  match c.result with
  | some b => sb.firstData ≤ b ∧ b < sb.logStart
  | none => ∀ b, sb.firstData ≤ b → b < sb.logStart → used sb c.before b = true

/-- As long as the calls met the condition before, they are right exactly if they meet it. -/
def Judged (sb : Superblock) (calls : List BallocCall) : Prop :=
  ∀ l₁ c l₂, calls = l₁ ++ c :: l₂ → (∀ c' ∈ l₁, c'.Met sb) → (c.Right sb ↔ c.Met sb)

structure LogSound (sb : Superblock) (log : Log) : Prop where
  start : log.start = sb.logStart
  home : ∀ x ∈ log.lh, x < sb.logStart

structure SoundParts (sb : Superblock) (A : Table) (g : Ghost) (L T : Multiset Slot)
    (blk : Nat → Block) (icache : Slot → Inode) (log : Log) (files : Fin nfile → File)
    (procs : Fin nproc → Proc) : Prop where
  disk : DiskSound sb A blk
  cache : CacheSound sb A g L T icache
  log : LogSound sb log
  files : files = g.files
  procs : ∀ p, (procs p).cwd = g.cwds p

/-- The state is sound for the inode table `A`. -/
abbrev Sound (sb : Superblock) (A : Table) (g : Ghost) (L T : Multiset Slot) (s : State) : Prop :=
  SoundParts sb A g L T s.blk s.icache s.log s.ftable s.procs

def Inv (sb : Superblock) (g : Ghost) (L T : Multiset Slot) (s : State) : Prop :=
  ∃ A, Sound sb A g L T s

/-- What holds in every state of every run; `clean` says that the run began with a sound disk. -/
structure AlwaysParts (sb : Superblock) (clean : Prop) (icache : Slot → Inode) (iputs : List IputCall)
    (ballocs : List BallocCall) : Prop where
  flags : ∀ ip, (icache ip).valid = true → (icache ip).busy = true
  iputs : ∀ c ∈ iputs, c.after = c.before
  judged : clean → Judged sb ballocs

abbrev Always (sb : Superblock) (clean : Prop) (s : State) : Prop :=
  AlwaysParts sb clean s.icache s.iputs s.ballocs

abbrev Guard (sb : Superblock) (clean : Prop) (s : State) : Prop :=
  clean ∧ ∀ c ∈ s.ballocs, c.Met sb

/-- The code does not stop in `bfree`. -/
abbrev Tame (e : Halt) : Prop := e ≠ .panic "freeing free block"

abbrev Spec (sb : Superblock) (clean : Prop) {α : Type} (P : State → Prop) (x : M α)
    (Q : α → State → Prop) : Prop :=
  Triple (Always sb clean) (Guard sb clean) Tame P x Q

def Blind (P : State → Prop) : Prop := ∀ s held, P s → P { s with held := held }

variable {sb : Superblock} {clean : Prop} {A A' : Table} {g : Ghost} {L T : Multiset Slot} {ip : Slot}
  {P Q : State → Prop} {s : State} {sector : Nat} {data : Block}

theorem blind_sound : Blind (Sound sb A g L T) := fun _ _ h => h

theorem blind_inv : Blind (Inv sb g L T) := fun _ _ h => h

theorem bread_run (s : State) (b : Nat) : (bread b : M Buf) s =
    if b ∈ s.held then .error .asleep s
    else .ok ⟨true, b, true, true, false, s.blk b⟩ { s with held := b :: s.held } := by
  by_cases h : b ∈ s.held
  · simp [bread, h]
  · simp [bread, h]

theorem brelse_run (s : State) (b : Buf) : (brelse b : M Unit) s =
    if b.sector ∉ s.held then .error (.panic "brelse") s
    else .ok () { s with held := s.held.erase b.sector } := by
  by_cases h : b.sector ∈ s.held
  · simp [brelse, h]
  · simp [brelse, h]

def logged (s : State) (sector : Nat) (data : Block) : State :=
  { s with
    blk := update s.blk sector data
    log := { s.log with lh := if sector ∉ s.log.lh then s.log.lh ++ [sector] else s.log.lh } }

/-- A transaction runs, and the log takes `n` more blocks. -/
structure LogRoom (log : Log) (n : Nat) : Prop where
  outstanding : 1 ≤ log.outstanding
  header : log.lh.length + n ≤ logSize
  region : log.lh.length + n + 1 ≤ log.size

/-- `log_write` refuses one of the next `n` blocks. -/
structure LogRefuses (log : Log) (n : Nat) (e : Halt) : Prop where
  short : ¬ LogRoom log n
  panic : 1 ≤ log.outstanding → e = .panic "too big a transaction"

theorem logWrite_ends (s : State) (b : Buf) : Ends (logWrite b : M Buf) s
    (fun b' s' => b' = { b with dirty := true } ∧ s' = logged s b.sector b.data)
    (fun e s' => Tame e ∧ s' = s ∧ LogRefuses s.log 1 e) := by
  unfold logWrite
  have hlog : (getLog : M Log) s = .ok s.log s := rfl
  refine .after_ok hlog ?_
  dsimp only
  split
  · rename_i hfull
    refine .after_error rfl ⟨by decide, rfl, fun hroom => ?_, fun _ => rfl⟩
    have hheader := hroom.header
    have hregion := hroom.region
    omega
  split
  · rename_i hnone
    refine .after_error rfl ⟨by decide, rfl, fun hroom => ?_, fun hsome => by omega⟩
    have houtstanding := hroom.outstanding
    omega
  split
  · rename_i h
    refine .of_run_ok rfl ⟨rfl, ?_⟩
    rw [logged, if_pos h, ← store_eq_update]
    rfl
  · rename_i h
    refine .of_run_ok rfl ⟨rfl, ?_⟩
    rw [logged, if_neg h, ← store_eq_update]

theorem bread_spec (hP : Blind P) (b : Nat) :
    Spec sb clean P (bread b) fun bp s => P s ∧ bp.sector = b ∧ bp.data = s.blk b := by
  intro s hI hG
  by_cases h : b ∈ s.held
  · refine .of_run_error ((bread_run s b).trans (if_pos h)) ⟨hI, by decide⟩
  · refine .of_run_ok ((bread_run s b).trans (if_neg h)) ⟨hI, fun hg => ⟨hg, ?_, rfl, rfl⟩⟩
    exact hP s _ (hG hg)

theorem brelse_spec (hP : Blind P) (bp : Buf) : Spec sb clean P (brelse bp) fun _ => P := by
  intro s hI hG
  by_cases h : bp.sector ∉ s.held
  · exact .of_run_error ((brelse_run s bp).trans (if_pos h)) ⟨hI, by decide⟩
  · refine .of_run_ok ((brelse_run s bp).trans (if_neg h)) ⟨hI, fun hg => ⟨hg, ?_⟩⟩
    exact hP s _ (hG hg)

theorem logWrite_spec (bp : Buf) (h : ∀ s, P s → Q (logged s bp.sector bp.data)) :
    Spec sb clean P (logWrite bp) fun _ => Q := by
  intro s hI hG
  apply (logWrite_ends s bp).mono
  · rintro bp' s' ⟨-, rfl⟩
    exact ⟨hI, fun hg => ⟨hg, h s (hG hg)⟩⟩
  · rintro e s' ⟨he, rfl, -⟩
    exact ⟨hI, he⟩

theorem rewrite_spec (hP : Blind P) (hQ : Blind Q) (b : Nat) (f : Block → Block)
    (h : ∀ s, P s → Q (logged s b (f (s.blk b)))) :
    Spec sb clean P (do
      let bp ← bread b
      let bp ← logWrite { bp with data := f bp.data }
      brelse bp) fun _ => Q := by
  refine (bread_spec hP b).bind fun bp => ?_
  refine .bind (logWrite_spec (Q := Q) _ ?_) fun bp' => brelse_spec hQ bp'
  rintro s ⟨hs, rfl, hdata⟩
  change Q (logged s bp.sector (f bp.data))
  rw [hdata]
  exact h s hs

theorem LogSound.logged (h : LogSound sb s.log)
    (hlt : sector < sb.logStart) : LogSound sb (logged s sector data).log := by
  refine ⟨h.start, fun x hx => ?_⟩
  change x ∈ (if sector ∉ s.log.lh then s.log.lh ++ [sector] else s.log.lh) at hx
  split at hx
  · rw [List.mem_append, List.mem_singleton] at hx
    exact hx.elim (h.home x) fun heq => heq ▸ hlt
  · exact h.home x hx

theorem SoundParts.logged (h : Sound sb A g L T s)
    (hlt : sector < sb.logStart) (hdisk : DiskSound sb A' (update s.blk sector data))
    (hcache : CacheSound sb A' g L T s.icache) : Sound sb A' g L T (logged s sector data) :=
  ⟨hdisk, hcache, h.log.logged hlt, h.files, h.procs⟩

theorem readsb_spec (hP : Blind P) :
    Spec sb clean P readsb fun sb' s => P s ∧ sb' = getSuperblock (s.blk 1) := by
  unfold readsb
  refine (bread_spec hP 1).bind fun bp => ?_
  refine (brelse_spec (fun s _ hs => ⟨hP s _ hs.1, hs.2⟩) bp).bind fun _ => ?_
  refine .pure fun s hs => ⟨hs.1, ?_⟩
  rw [hs.2.2]

end RainOS.Fs
