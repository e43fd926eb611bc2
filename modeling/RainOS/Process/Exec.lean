import RainOS.Process.Load

/-!
# exec

What `exec` does to memory when its segments lie inside and no argument is so long that the stack pointer
wraps around past the kernel's tables: it panics nowhere, it touches only free pages and, once the new image
is complete, the pages of the old one. When it fails, everything is as before, except that running out of
memory at a page table loses pages.
-/

namespace RainOS.Process

open Kalloc Vm Function List

variable {s s' : Machine} {m₀ m m' : Memory} {l₀ l l' : List Nat} {own₀ own own' : Nat → Option Owner}
  {lost : Option Nat} {p q d n a sz sp argc cur va newsz free data : Nat} {ip : File} {argv : List (List UInt8)}

/-! ### The stack -/

/-- Arguments that are shorter than the device space above the kernel. -/
def ArgsFit (argv : List (List UInt8)) : Prop := ∀ arg ∈ argv, arg.length < 0x2000000

theorem copyTo_push (hsp : sp ≤ sz) (hsmall : sz < kernbase) (buf : List UInt8) (hva : va + buf.length ≤ sp ∨ sp < buf.length ∧ 0xFE000000 ≤ va ∧ va < 2 ^ 32) : CopyTo sz va buf := by
  obtain hin | ⟨-, hlo, hhi⟩ := hva
  · exact .inr (.inl (Nat.le_trans hin hsp))
  · have hmax := npages_le (Nat.le_of_lt hsmall)
    change npages sz ≤ 524288 at hmax
    refine .inr (.inr ⟨hhi, ?_, decide_eq_true ⟨?_, .inl (.inr ?_)⟩⟩)
    · simp only [pgsize]
      omega
    · have hlt : va / 4096 / 1024 < 1024 := by omega
      exact hlt
    · have hge : 1016 ≤ va / 4096 / 1024 := by omega
      exact hge

theorem push_cases (hsp : sp ≤ sz) (hsmall : sz < kernbase) (hlen : n ≤ 0x2000000) :
    (sp + 2 ^ 32 - n) % 2 ^ 32 / 4 * 4 + n ≤ sp ∨
      sp < n ∧ 0xFE000000 ≤ (sp + 2 ^ 32 - n) % 2 ^ 32 / 4 * 4 ∧ (sp + 2 ^ 32 - n) % 2 ^ 32 / 4 * 4 < 2 ^ 32 := by
  simp only [kernbase] at hsmall
  omega

theorem pushArgs_spec (h : Held m₀ l₀ own₀ d none m l own) (himage : Image m own d sz) (hsp : sp ≤ sz)
    (hargs : ArgsFit argv) (hargc : argc ≤ maxarg) :
    Ends (pushArgs cur d argv argc sp) m (fun r m' => (∀ bottom addrs, r = some (bottom, addrs) →
        bottom ≤ sz ∧ argc + addrs.length ≤ maxarg) ∧
      Held m₀ l₀ own₀ d none m' l own ∧ Image m' own d sz) fun _ _ => False := by
  induction argv generalizing m argc sp with
  | nil =>
    refine .pure ⟨fun bottom addrs hr => ?_, h, himage⟩
    cases hr
    exact ⟨hsp, hargc⟩
  | cons arg rest ih =>
    unfold pushArgs
    refine .ite (fun _ => .pure ⟨nofun, h, himage⟩) fun hmax => ?_
    have hlen : (arg ++ [0]).length = arg.length + 1 := length_append
    have hfit : arg.length + 1 ≤ 0x2000000 := hargs arg mem_cons_self
    have hpush := push_cases hsp himage.small hfit
    have hto := copyTo_push hsp himage.small (arg ++ [0]) (by rw [hlen]; exact hpush)
    refine (copyout_spec h himage hto).bind fun r m₁ hr => ?_
    obtain ⟨hcases, h₁, himage₁⟩ := hr
    refine .ite (fun _ => .pure ⟨nofun, h₁, himage₁⟩) fun hneg => ?_
    have hlow : (sp + 2 ^ 32 - (arg.length + 1)) % 2 ^ 32 / 4 * 4 ≤ sz := by
      obtain hneg' | hnil | hpage := hcases
      · exact absurd hneg' hneg
      · simp at hnil
      · have hmax' := npages_le (Nat.le_of_lt himage.small)
        change npages sz ≤ 524288 at hmax'
        simp only [pgsize] at hpage
        omega
    refine (ih h₁ himage₁ hlow (fun a ha => hargs a (mem_cons_of_mem _ ha)) (by omega)).bind fun r m₂ hr => ?_
    obtain ⟨hbottom, hrest⟩ := hr
    cases r with
    | none => exact .pure ⟨nofun, hrest⟩
    | some result =>
      obtain ⟨bottom, addrs⟩ := result
      refine .pure ⟨fun bottom' addrs' heq => ?_, hrest⟩
      cases heq
      have hb := hbottom bottom addrs rfl
      refine ⟨hb.1, ?_⟩
      rw [length_cons]
      omega

theorem ustack_length (sp argc : Nat) (addrs : List Nat) : (ustack sp argc addrs).length = (3 + addrs.length + 1) * 4 := by
  simp [ustack, length_flatMap]
  omega

theorem pushStack_spec (h : Held m₀ l₀ own₀ d none m l own) (himage : Image m own d sz) (hpos : sz ≠ 0)
    (hargs : ArgsFit argv) :
    Ends (pushStack cur d sz argv) m (fun _ m' => Held m₀ l₀ own₀ d none m' l own ∧ Image m' own d sz)
      fun _ _ => False := by
  have hguard : sz - 2 * pgsize < sz := Nat.sub_lt (Nat.pos_of_ne_zero hpos) (by decide)
  unfold pushStack
  refine (clearpteu_spec h himage hguard).bind fun _ m₁ h₁ => ?_
  refine (pushArgs_spec h₁.1 h₁.2 (Nat.le_refl sz) hargs (Nat.zero_le _)).bind fun r m₂ hr => ?_
  obtain ⟨hbottom, h₂, himage₂⟩ := hr
  cases r with
  | none => exact .pure ⟨h₂, himage₂⟩
  | some result =>
    obtain ⟨sp, addrs⟩ := result
    obtain ⟨hsp, hcount⟩ := hbottom sp addrs rfl
    rw [Nat.zero_add] at hcount
    have hlen : (3 + addrs.length + 1) * 4 ≤ 0x2000000 := by
      simp only [maxarg] at hcount
      omega
    have hva : (sp + 2 ^ 32 - (3 + addrs.length + 1) * 4) % 2 ^ 32 + (3 + addrs.length + 1) * 4 ≤ sp ∨
        sp < (3 + addrs.length + 1) * 4 ∧ 0xFE000000 ≤ (sp + 2 ^ 32 - (3 + addrs.length + 1) * 4) % 2 ^ 32 ∧
          (sp + 2 ^ 32 - (3 + addrs.length + 1) * 4) % 2 ^ 32 < 2 ^ 32 := by
      have hsmall := himage.small
      simp only [kernbase] at hsmall
      omega
    have hto := copyTo_push hsp himage.small (ustack sp addrs.length addrs)
      (by rw [ustack_length]; exact hva)
    refine (copyout_spec h₂ himage₂ hto).bind fun r m₃ hr => ?_
    split
    · exact .pure hr.2
    · exact .pure hr.2

/-! ### The image -/

/-- How building the image ends, `segs` being its segments. -/
def ImageEnd (m₀ : Memory) (l₀ : List Nat) (own₀ : Nat → Option Owner) (d : Nat) (segs : List Segment)
    (s : Machine) (r : Option Nat) (s' : Machine) : Prop :=
  Loaded l₀ s s' ∧
    match r with
    | some sz => ∃ l own, Held m₀ l₀ own₀ d none s'.mem l own ∧ Image s'.mem own d sz ∧ ¬Leaks segs
    | none => ∃ lost l own, Held m₀ l₀ own₀ d lost s'.mem l own ∧ (Leaks segs ↔ lost ≠ none)

theorem npages_pgroundup (h : sz < kernbase) : npages (pgroundup sz) = npages sz := by
  rw [pgroundup_eq (Nat.le_of_lt h)]
  simp only [npages, pgsize]
  omega

theorem building_round (h : Building m₀ l₀ own₀ d sz m l own) (hsmall : pgroundup sz < kernbase) :
    Building m₀ l₀ own₀ d (pgroundup sz) m l own := by
  have hpages := npages_pgroundup h.image.small
  refine ⟨h.toHeld, ⟨h.image.live, hsmall, ?_, ?_, h.image.kernel, ?_⟩, ?_⟩
  · rw [hpages]
    exact h.image.inside
  · rw [hpages]
    exact h.image.empty
  · rw [hpages]
    exact h.image.tables
  · unfold Accessible
    rw [hpages]
    exact h.flags

theorem allocuvm_refused (d oldsz : Nat) (h : kernbase ≤ newsz) (m : Memory) :
    allocuvm d oldsz newsz m = .ok 0 m := by
  unfold allocuvm
  rw [if_pos h]
  rfl

theorem loadImage_ends (elf : Elfhdr) (h : Building m₀ l₀ own₀ d 0 s.mem l own) {segs : List Segment}
    (hsegs : segs = segments ip elf.phnum elf.phoff 0 l.length) (hshort : ∀ g ∈ segs, ¬g.Short) (hargs : ArgsFit argv) :
    Ends (loadImage cur d ip elf argv) s
      (fun r s' => Outcome l₀ s s' (∀ g ∈ segs, g.Inside ip) (ImageEnd m₀ l₀ own₀ d segs s r s'))
      fun _ _ => ¬∀ g ∈ segs, g.Inside ip := by
  subst hsegs
  unfold loadImage
  refine (loadHeaders_ends elf.phnum h hshort).bind fun r s₁ hr => ?_
  obtain ⟨hinside, hloaded, hends⟩ | ⟨hout, hstrayed⟩ := hr
  swap
  · refine hstrayed.rest hout ?_
    cases r with
    | none => exact logs_pure _
    | some sz =>
      refine (logs_lift _).bind fun top => ?_
      split
      · exact logs_pure _
      · refine (logs_lift _).bind fun done => ?_
        split
        · exact logs_pure _
        · exact logs_pure _
  refine .mono ?_ (fun r s' hr => .inl ⟨hinside, hr⟩) fun _ _ hf => False.elim hf
  cases r with
  | none => exact .pure ⟨hloaded, hends⟩
  | some sz =>
    obtain ⟨l₁, own₁, hbuild, hin, hleaks⟩ := hends
    have hsmall := hbuild.image.small
    by_cases hround : pgroundup sz < kernbase
    · have halloc := allocuvm_segment (building_round hbuild hround) (g := stackSegment sz l₁.length) rfl rfl
        (hshort _ hin)
      refine (lift_spec halloc).bind fun top s₂ htop => ?_
      obtain ⟨m₂, rfl, hends⟩ := htop
      have hall := hloaded.trans (loaded_mem l₀ s₁ m₂)
      cases hends with
      | bad lost _ l₂ own₂ hgrow hheld hreq =>
        rw [if_pos rfl]
        exact .pure ⟨hall, lost, l₂, own₂, hheld, hleaks.trans hreq⟩
      | good _ _ l₂ own₂ hne hgrow hbuild₂ hreq =>
        rw [if_neg hne]
        refine (lift_spec (s := { s₁ with mem := m₂ })
          (pushStack_spec hbuild₂.toHeld hbuild₂.image hne hargs)).bind fun done s₃ hdone => ?_
        obtain ⟨m₃, rfl, h₃, himage₃⟩ := hdone
        have hall' := hall.trans (loaded_mem l₀ _ m₃)
        have hnone := mt hleaks.mp hreq
        split
        · exact .pure ⟨hall', l₂, own₂, h₃, himage₃, hnone⟩
        · exact .pure ⟨hall', none, l₂, own₂, h₃, iff_of_false hnone fun hne => hne rfl⟩
    · have htop : kernbase ≤ (pgroundup sz + 2 * pgsize) % 2 ^ 32 := by
        simp only [pgroundup, kernbase, pgsize] at hsmall hround ⊢
        omega
      refine .after_ok (lift_run (allocuvm_refused d _ htop s₁.mem)) ?_
      rw [if_pos rfl]
      refine .pure ⟨hloaded, none, l₁, own₁, hbuild.toHeld, iff_of_false (fun hl => ?_) fun hne => hne rfl⟩
      have hreq := hleaks.mp hl
      have hnone : (stackSegment sz l₁.length).request = none := if_neg (Nat.not_lt_of_le htop)
      rw [hnone] at hreq
      cases hreq

/-! ### The call -/

def elfOf (ip : File) : Option Elfhdr :=
  let header := (readi ip 0 elfhdrSize).getD []
  if header.length < elfhdrSize then none
  else if (Elfhdr.read header).magic ≠ elfMagic then none
  else some (Elfhdr.read header)

/-- The segments of a program when there are `free` pages, of which `setupkvm` takes its own. -/
def programSegments (ip : File) (free : Nat) : List Segment :=
  match elfOf ip with
  | none => []
  | some elf =>
    if free ≤ kernelTables then [] else segments ip elf.phnum elf.phoff 0 (free - (kernelTables + 1))

/-- Running out of memory, `exec` finds no page for a page table. -/
def ExecLeaks (ip : File) (free : Nat) : Prop :=
  elfOf ip ≠ none ∧ 0 < free ∧ free ≤ kernelTables ∨ Leaks (programSegments ip free)

inductive ExecEnds (p : Slot) (ip : File) (l : List Nat) (own : Nat → Option Owner) (s : Machine) :
    Int → Machine → Prop
  | refused (hno : elfOf ip = none) : ExecEnds p ip l own s (-1) s
  | failed (s' : Machine) (l' : List Nat) (own' : Nat → Option Owner) (hloaded : Loaded l s s')
      (hfailed : Failed (ExecLeaks ip l.length) l own s.mem s'.mem l' own') : ExecEnds p ip l own s (-1) s'
  | done (pgdir sz : Nat) (s' : Machine) (l' : List Nat) (own' : Nat → Option Owner) (hin : pgdir ∈ l)
      (hloaded : Loaded l { s with procs := update s.procs p { s.procs p with pgdir := pgdir, sz := sz } } s')
      (howned : Owned s'.mem l' own') (hframe : Frame (Free l own (s.procs p).pgdir) s.mem own s'.mem own')
      (hshape : Shaped s'.mem own' pgdir sz) : ExecEnds p ip l own s 0 s'

theorem programSegments_few (h : elfOf ip = none ∨ free ≤ kernelTables) : programSegments ip free = [] := by
  unfold programSegments
  split
  · rfl
  · rename_i elf helf
    exact if_pos (h.resolve_left fun hno => by rw [hno] at helf; cases helf)

theorem exec_ends (hlinked : Linked data) (p : Slot) (h : Owned s.mem l own)
    (hend : kernbase < s.mem.kernelEnd) (hold : own (s.procs p).pgdir = some .directory)
    (hshort : ∀ g ∈ programSegments ip l.length, ¬g.Short) (hargs : ArgsFit argv) :
    Ends (exec data p (some ip) argv) s
      (fun r s' => Outcome l s s' (∀ g ∈ programSegments ip l.length, g.Inside ip) (ExecEnds p ip l own s r s'))
      fun _ _ => ¬∀ g ∈ programSegments ip l.length, g.Inside ip := by
  have hempty (hno : elfOf ip = none ∨ l.length ≤ kernelTables) : ∀ g ∈ programSegments ip l.length, g.Inside ip := by
    rw [programSegments_few hno]
    exact fun _ hg => nomatch hg
  unfold exec
  dsimp only
  have helf : elfOf ip = if ((readi ip 0 elfhdrSize).getD []).length < elfhdrSize then none
      else if (Elfhdr.read ((readi ip 0 elfhdrSize).getD [])).magic ≠ elfMagic then none
      else some (Elfhdr.read ((readi ip 0 elfhdrSize).getD [])) := rfl
  generalize (readi ip 0 elfhdrSize).getD [] = header at helf ⊢
  by_cases hlen : header.length < elfhdrSize
  · rw [if_pos hlen] at helf ⊢
    exact .pure (.inl ⟨hempty (.inl helf), .refused helf⟩)
  rw [if_neg hlen] at helf ⊢
  by_cases hmagic : (Elfhdr.read header).magic ≠ elfMagic
  · rw [if_pos hmagic] at helf ⊢
    exact .pure (.inl ⟨hempty (.inl helf), .refused helf⟩)
  rw [if_neg hmagic] at helf ⊢
  refine .after_ok (get_run s) ?_
  refine .bind (lift_spec (setupkvm_spec hlinked h)).returns fun d s₁ hsetup => ?_
  obtain ⟨m₁, rfl, hsetup⟩ := hsetup
  cases hsetup with
  | full hl =>
    subst hl
    rw [if_pos rfl]
    have hnone : ¬ExecLeaks ip 0 := by
      rintro (⟨-, hpos, -⟩ | hleaks)
      · cases hpos
      · rw [programSegments_few (.inr (Nat.zero_le _))] at hleaks
        exact not_leaks_nil hleaks
    exact .pure (.inl ⟨hempty (.inr (Nat.zero_le _)),
      .failed s [] own (.refl [] s) ⟨h, .refl _ _ _, fun _ => rfl, fun hl => absurd hl hnone⟩⟩)
  | lost d₀ _ own₁ hin hfew howned hgrew hlive =>
    have hleaks : ExecLeaks ip l.length := .inl ⟨by rw [helf]; exact nofun, length_pos_of_mem hin, hfew⟩
    rw [if_pos rfl]
    exact .pure (.inl ⟨hempty (.inr hfew), .failed _ [] _ (loaded_mem l s m₁) (hgrew.failed_setup h hin howned hleaks)⟩)
  | made _ pages l₁ _ own₁ hne hsplit hin hlen howned hgrew hlive hfresh =>
    have hbuild := building_start h hend hsplit hin howned hgrew hlive hfresh
    have hlength : l.length = kernelTables + 1 + l₁.length := by rw [hsplit, length_append, hlen]
    have hsegs : programSegments ip l.length = segments ip (Elfhdr.read header).phnum (Elfhdr.read header).phoff 0
        l₁.length := by
      rw [programSegments, helf]
      dsimp only
      rw [if_neg (by omega), hlength, Nat.add_sub_cancel_left]
    have hleaks : ExecLeaks ip l.length ↔ Leaks (programSegments ip l.length) :=
      or_iff_right fun hf => by omega
    rw [if_neg hne]
    refine (loadImage_ends (s := { s with mem := m₁ }) (Elfhdr.read header) hbuild hsegs hshort hargs).bind
      fun r s₂ hr => ?_
    obtain ⟨hinside, hloaded, hends⟩ | ⟨hout, hstrayed⟩ := hr
    swap
    · have hstrayed : Strayed l s s₂ := hstrayed
      refine hstrayed.rest hout ?_
      cases r with
      | none => exact (logs_lift _).bind fun _ => logs_pure _
      | some sz =>
        refine Logs.bind (fun _ => .modify (prefix_refl _)) fun _ => ?_
        exact (logs_lift _).bind fun _ => logs_pure _
    refine .mono ?_ (fun r s' hr => .inl ⟨hinside, hr⟩) fun _ _ hf => False.elim hf
    have hall := (loaded_mem l s m₁).trans hloaded
    cases r with
    | none =>
      obtain ⟨lost, l₂, own₂, hheld, hlost⟩ := hends
      refine (lift_spec (hheld.freevm (hleaks.trans hlost))).bind fun _ s₃ hfreed => ?_
      obtain ⟨m₃, rfl, l₃, own₃, hfailed⟩ := hfreed
      exact .pure (.failed _ l₃ own₃ (hall.trans (loaded_mem l s₂ m₃)) hfailed)
    | some sz =>
      obtain ⟨l₂, own₂, hheld, himage, -⟩ := hends
      have hnot : (s.procs p).pgdir ∉ l := fun hin' => by
        rw [(h.isFree _).mpr hin'] at hold
        cases hold
      have hold₂ : own₂ (s.procs p).pgdir = some .directory := by rw [hheld.frame.own _ hnot, hold]
      have hd : d ∈ l := hheld.new
      have hdne : d ≠ (s.procs p).pgdir := fun heq => hnot (heq ▸ hd)
      obtain ⟨m', loads, rfl, hgood⟩ := hall
      refine .after_ok rfl ?_
      refine (lift_spec (s := { s with
        mem := m', loads := s.loads ++ loads,
        procs := update s.procs p { s.procs p with pgdir := d, sz := sz } })
        (freevm_frame hheld.owned hold₂ hheld.above')).bind fun _ s₃ hr => ?_
      obtain ⟨m₃, rfl, ⟨l₃, howned₃⟩, hfreed⟩ := hr
      have hspace : ∀ q, spaceOf own₂ q = some (s.procs p).pgdir → Free l own (s.procs p).pgdir q := by
        intro q hq
        by_cases hin' : q ∈ l
        · exact .inl hin'
        · rw [spaceOf_eq (hheld.frame.own q hin')] at hq
          exact .inr hq
      refine .pure (.done d sz _ l₃ _ hd ⟨m₃, loads, rfl, hgood⟩ howned₃
        ((hheld.frame.mono fun _ hq => .inl hq).trans (hfreed.mono hspace)) ?_)
      refine himage.shaped.frame hheld.owned hfreed fun q hq hq' => ?_
      rw [hq] at hq'
      exact hdne (Option.some.inj hq')

theorem exec_spec (hlinked : Linked data) (p : Slot) (h : Owned s.mem l own)
    (hend : kernbase < s.mem.kernelEnd) (hold : own (s.procs p).pgdir = some .directory)
    (hinside : ∀ g ∈ programSegments ip l.length, g.Inside ip)
    (hshort : ∀ g ∈ programSegments ip l.length, ¬g.Short) (hargs : ArgsFit argv) :
    Ends (exec data p (some ip) argv) s (ExecEnds p ip l own s) fun _ _ => False :=
  (exec_ends hlinked p h hend hold hshort hargs).mono (fun _ _ hr => hr.good hinside) fun _ _ hout => hout hinside

end RainOS.Process
