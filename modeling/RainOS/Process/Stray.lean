import RainOS.Process.Leaks

/-!
# Programs that stray

`exec` trusts the addresses in the program headers. With memory enough, it is safe exactly if every segment
lies inside the pages that were allocated for it: a segment that does not makes `loaduvm` panic or store
through whatever entry it finds, and the history of its stores keeps that for ever.
-/

namespace RainOS.Process

open Kalloc Vm Function List

variable {s : Machine} {m : Memory} {l : List Nat} {own : Nat → Option Owner} {p : Slot} {data d q free : Nat}
  {ip : File} {argv : List (List UInt8)}

def Ample (ip : File) (free : Nat) : Prop :=
  kernelTables < free ∧ ∀ g ∈ programSegments ip free, g.request = none

theorem Ample.not_short (h : Ample ip free) : ∀ g ∈ programSegments ip free, ¬g.Short := by
  intro g hg hshort
  have hnone := h.2 g hg
  rw [hshort.1] at hnone
  cases hnone

def InSpace (m : Memory) (d q : Nat) : Prop :=
  q = d ∨ (∃ i < npdentries, tableAt m.word d i = some q) ∨ ∃ k < userPages, frameAt m.word d k = some q

theorem inSpace_of_spaceOf (h : Owned m l own) (hq : spaceOf own q = some d) : InSpace m d q := by
  obtain ⟨heq, -⟩ | ⟨i, htable⟩ | ⟨k, huser⟩ := spaceOf_eq_some.mp hq
  · exact .inl heq
  · exact .inr (.inl ⟨i, ((h.isTable q d i).mp htable).2⟩)
  · exact .inr (.inr ⟨k, ((h.isUser q d k).mp huser).2⟩)

/-- `exec` stops nowhere, it stores only to pages that were free and, when it gives the old image back, to its
pages, and every store of `loaduvm` goes to a user page that is mapped to a page that was free. -/
def ExecSafe (data : Nat) (p : Slot) (ip : File) (argv : List (List UInt8)) (l : List Nat) (s : Machine) : Prop :=
  ∃ r s', exec data p (some ip) argv s = .ok r s' ∧
    (∀ a, s'.mem.word a ≠ s.mem.word a →
      pgrounddown a ∈ l ∨ r = 0 ∧ InSpace s.mem (s.procs p).pgdir (pgrounddown a)) ∧
    ∃ loads, s'.loads = s.loads ++ loads ∧ ∀ x ∈ loads, x.Good l

/-- With memory enough, `exec` is safe exactly for the programs whose segments lie inside. -/
theorem exec_safe_iff (hlinked : Linked data) (h : Owned s.mem l own) (hend : kernbase < s.mem.kernelEnd)
    (hold : own (s.procs p).pgdir = some .directory) (hargs : ArgsFit argv) (hample : Ample ip l.length) :
    ExecSafe data p ip argv l s ↔ ∀ g ∈ programSegments ip l.length, g.Inside ip := by
  constructor
  · rintro ⟨r, s', hrun, -, loads, hloads, hgood⟩
    by_contra hout
    have hends := (exec_ends hlinked p h hend hold hample.not_short hargs).of_ok hrun
    exact (hends.strayed hout).not_good hloads hgood
  · intro hinside
    obtain ⟨r, s', hrun, hends⟩ := (exec_spec hlinked p h hend hold hinside hample.not_short hargs).exists_ok
    refine ⟨r, s', hrun, ?_⟩
    cases hends with
    | refused hno => exact ⟨fun _ hne => absurd rfl hne, [], (append_nil _).symm, fun _ hx => (nomatch hx)⟩
    | failed _ l' own' hloaded hfailed =>
      obtain ⟨m', loads, rfl, hgood⟩ := hloaded
      exact ⟨fun a hne => .inl (by_contra fun hnot => hne (hfailed.frame.word a hnot)), loads, rfl, hgood⟩
    | done pgdir sz _ l' own' hin hloaded howned hframe hshape =>
      obtain ⟨m', loads, rfl, hgood⟩ := hloaded
      refine ⟨fun a hne => ?_, loads, rfl, hgood⟩
      obtain hfree | hspace := by_contra fun hnot => hne (hframe.word a hnot)
      · exact .inl hfree
      · exact .inr ⟨rfl, inSpace_of_spaceOf h hspace⟩

def bytes32 (v : Nat) : List UInt8 := (List.range 4).map fun i => UInt8.ofNat (v / 256 ^ i)

/-- A program with one segment, which begins at the start of the file. -/
def oneSegment (vaddr filesz memsz : Nat) : File where
  bytes := bytes32 elfMagic ++ List.replicate 24 0 ++ bytes32 elfhdrSize ++ List.replicate 12 0 ++ [1] ++
    List.replicate 7 0 ++ bytes32 elfProgLoad ++ bytes32 0 ++ bytes32 vaddr ++ bytes32 0 ++ bytes32 filesz ++
    bytes32 memsz ++ List.replicate 8 0
  small := by simp [bytes32, Fs.maxfile, Fs.ndirect, Fs.nindirect, bsize]

theorem oneSegment_zero : programSegments (oneSegment 0 84 4096) 100 =
    [⟨0, 4096, 34, 0, 0, 84⟩, ⟨4096, 12288, 32, 0, 0, 0⟩] := by decide +kernel

theorem oneSegment_wrap : programSegments (oneSegment 0x80000000 1 0x80001000) 100 =
    [⟨0, 4096, 34, 0x80000000, 0, 1⟩, ⟨4096, 12288, 32, 0, 0, 0⟩] := by decide +kernel

theorem oneSegment_zero_inside : ∀ g ∈ programSegments (oneSegment 0 84 4096) 100, g.Inside (oneSegment 0 84 4096) := by
  rw [oneSegment_zero]
  intro g hg
  obtain hg | hg := mem_cons.mp hg
  · have hgrow : grow 34 0 4096 = some (4096, 32) := by decide
    rw [hg]
    unfold Segment.Inside
    rw [hgrow]
    refine ⟨rfl, by decide, ?_⟩
    split
    · trivial
    · exact ⟨fun _ => by decide, fun _ => trivial⟩
  · exact stackSegment_inside 4096 (mem_singleton.mp hg)

theorem oneSegment_wrap_stray : ∃ g ∈ programSegments (oneSegment 0x80000000 1 0x80001000) 100,
    ¬g.Inside (oneSegment 0x80000000 1 0x80001000) := by
  rw [oneSegment_wrap]
  refine ⟨_, mem_cons_self, fun hinside => ?_⟩
  have hgrow : grow 34 0 4096 = some (4096, 32) := by decide
  have hread : readi (oneSegment 0x80000000 1 0x80001000) 0 1 = some [0x7F] := by decide +kernel
  unfold Segment.Inside at hinside
  rw [hgrow] at hinside
  obtain ⟨-, -, hround⟩ := hinside
  split at hround
  · rename_i hnone
    cases hread.symm.trans hnone
  · rename_i bytes hbytes
    cases hread.symm.trans hbytes
    exact absurd (hround.1 (cons_ne_nil _ _)) (by decide)

theorem exec_safe_iff_zero :
    ∃ s l, Live s initproc ∧ FreeList s.mem l ∧ l.length = 100 ∧
      ExecSafe 0x80109000 initproc (oneSegment 0 84 4096) [] l s := by
  have hk : 100 ≤ 50000 := by decide
  obtain ⟨s, l, own, hinv, hlive, -, hlen, -⟩ := boot_drained hk
  have hlinked : Linked 0x80109000 := by decide
  have hample : Ample (oneSegment 0 84 4096) l.length := by
    rw [hlen]
    refine ⟨by decide, ?_⟩
    rw [oneSegment_zero]
    decide
  have hargs : ArgsFit [] := fun _ harg => nomatch harg
  refine ⟨s, l, hlive, hinv.owned.free, hlen, ?_⟩
  refine (exec_safe_iff hlinked hinv.owned hinv.above (hinv.shape initproc hlive).live hargs hample).mpr ?_
  rw [hlen]
  exact oneSegment_zero_inside

/-- A segment whose end wraps around is loaded at `KERNBASE`. -/
theorem exec_strays_wrap :
    ∃ s l, Live s initproc ∧ FreeList s.mem l ∧ l.length = 100 ∧ Ample (oneSegment 0x80000000 1 0x80001000) 100 ∧
      ¬ExecSafe 0x80109000 initproc (oneSegment 0x80000000 1 0x80001000) [] l s := by
  have hk : 100 ≤ 50000 := by decide
  obtain ⟨s, l, own, hinv, hlive, -, hlen, -⟩ := boot_drained hk
  have hlinked : Linked 0x80109000 := by decide
  have hample : Ample (oneSegment 0x80000000 1 0x80001000) 100 := by
    refine ⟨by decide, ?_⟩
    rw [oneSegment_wrap]
    decide
  refine ⟨s, l, hlive, hinv.owned.free, hlen, hample, ?_⟩
  rintro ⟨r, s', hrun, -, loads, hloads, hgood⟩
  have hargs : ArgsFit [] := fun _ harg => nomatch harg
  have hends := exec_ends hlinked initproc hinv.owned hinv.above (hinv.shape initproc hlive).live
    (by rw [hlen]; exact hample.not_short) hargs
  obtain ⟨g, hg, hnot⟩ := oneSegment_wrap_stray
  rw [← hlen] at hg
  exact ((hends.of_ok hrun).strayed fun hin => hnot (hin g hg)).not_good hloads hgood

end RainOS.Process
