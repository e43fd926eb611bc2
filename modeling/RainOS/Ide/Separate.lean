import RainOS.Ide.Shared

/-!
# Keeping the two drivers apart

A read of the exokernel that is issued while a kernel request is in progress replaces the kernel's
command, and the kernel's buffer is then filled with the exokernel's sector. The drivers work as long
as neither issues a command while the other's is outstanding, interrupts for the exokernel come while
the process that queued the buffers is running, and the buffers queued at one time do not overlap. Then
the controller always serves the head of the queue whose turn it is, and both queues are first in, first
out.
-/

namespace RainOS.Ide

open Function List

variable {P : Type}

def Controller.Idle (c : Controller) : Prop := c.busy = false ∧ c.irqs = 0

instance (c : Controller) : Decidable c.Idle := inferInstanceAs (Decidable (_ ∧ _))

def NoOverlap (a b : Nat) : Prop := a + bsize ≤ b ∨ b + bsize ≤ a

instance (a b : Nat) : Decidable (NoOverlap a b) := inferInstanceAs (Decidable (_ ∨ _))

def Separate (s : State P) : Action P → Prop
  | .iderw _ _ => s.idequeue = [] → s.ctl.Idle
  | .exAddbuffer p _ _ location =>
    location ≠ 0 ∧ ∀ n ∈ s.pending, n.proc = p ∧ NoOverlap n.location location
  | .exReadSector p =>
    s.queue.idequeue ≠ 0 → s.idequeue = [] ∧ s.ctl.Idle ∧ ∀ n ∈ s.pending, n.proc = p
  | .exResetTransferCount => s.pending = []
  | .ideintr none => s.idequeue ≠ []
  | .ideintr (some p) => s.idequeue = [] → s.exo p = true ∧ ∀ n ∈ s.pending, n.proc = p
  | .exRegister _ => True
  | .complete => True

/-! ### The controller -/

/-- One command is outstanding: in progress, or done with its interrupt to take. -/
def Controller.Serving (c : Controller) (command : Command) : Prop :=
  c.command = some command ∧ (c.busy = true ∧ c.irqs = 0 ∨ c.busy = false ∧ c.irqs = 1)

def Controller.Settled (c : Controller) : Prop :=
  ∀ sector data, c.command = some (.write sector data) → c.busy = false → c.disk sector = data

variable {c : Controller} {command cmd : Command}

theorem Controller.idewait_of_not_busy (h : c.busy = false) : c.idewait = c := by
  rw [idewait, h]
  rfl

theorem Controller.Idle.issue (h : c.Idle) (command : Command) : (c.issue command).Serving command := by
  refine ⟨rfl, Or.inl ⟨rfl, ?_⟩⟩
  rw [Controller.issue, idewait_of_not_busy h.1]
  exact h.2

theorem Controller.settled_issue (c : Controller) (command : Command) : (c.issue command).Settled :=
  fun _ _ _ hbusy => by cases hbusy

theorem Controller.Settled.idewait (h : c.Settled) : c.idewait.Settled := by
  intro sector data hcommand hbusy
  unfold Controller.idewait at hcommand ⊢
  split at hcommand
  · rename_i hb
    rw [if_pos hb]
    change c.effect sector = data
    change c.command = _ at hcommand
    rw [effect, hcommand]
    exact update_self ..
  · rename_i hb
    rw [if_neg hb]
    exact h sector data hcommand (by simpa using hb)

theorem Controller.Serving.idewait (h : c.Serving command) : c.idewait.Serving command := by
  obtain ⟨hcommand, ⟨hbusy, hirqs⟩ | ⟨hbusy, hirqs⟩⟩ := h
  · refine ⟨?_, Or.inr ?_⟩
    · rw [Controller.idewait, if_pos hbusy]
      exact hcommand
    · rw [Controller.idewait, if_pos hbusy]
      exact ⟨rfl, by rw [hirqs]⟩
  · rw [idewait_of_not_busy hbusy]
    exact ⟨hcommand, Or.inr ⟨hbusy, hirqs⟩⟩

theorem Controller.Idle.ideread (h : c.Idle) (sector : Nat) :
    (ideread c sector).Serving (.read sector) ∧ (ideread c sector).busy = false ∧
      (ideread c sector).Settled := by
  refine ⟨(h.issue _).idewait, rfl, (c.settled_issue _).idewait⟩

theorem Controller.Settled.request {buf : KBuf} (h : c.Settled) (hcommand : c.command = some buf.request)
    (hbusy : c.busy = false) :
    (if buf.dirty then buf.data else c.insl) = c.disk buf.sector := by
  unfold KBuf.request at hcommand
  split at hcommand
  · rename_i hdirty
    rw [if_pos hdirty, h _ _ hcommand hbusy]
  · rename_i hdirty
    rw [if_neg hdirty, insl, hcommand]
    rfl

/-! ### The exokernel's queue in memory -/

/-- The nodes linked from an address on, in one process's memory. -/
def Nodes (m : Mem) : Nat → List (Node P) → Prop
  | a, [] => a = 0
  | a, n :: rest =>
    a = n.location ∧ a ≠ 0 ∧ Mem.word m 4 (a + 4) = n.sector ∧ Mem.word m 4 (a + 8) = a ∧
      Nodes m (Mem.word m 4 (a + 12)) rest

variable {m m' : Mem} {a sector location device i b : Nat} {l rest : List (Node P)} {n x : Node P}

theorem Nodes.congr (h : Nodes m a l)
    (hsame : ∀ n ∈ l, ∀ i, n.location ≤ i → i < n.location + 16 → m' i = m i) : Nodes m' a l := by
  induction l generalizing a with
  | nil => exact h
  | cons n rest ih =>
    obtain ⟨rfl, hne, hsector, hlocation, hrest⟩ := h
    have hword : ∀ k, k + 4 ≤ 16 → Mem.word m' 4 (n.location + k) = Mem.word m 4 (n.location + k) := by
      intro k hk
      apply Mem.word_congr
      intro i hlo hhi
      exact hsame n mem_cons_self i (by omega) (by omega)
    refine ⟨rfl, hne, ?_, ?_, ?_⟩
    · rw [hword 4 (by omega), hsector]
    · rw [hword 8 (by omega), hlocation]
    · rw [hword 12 (by omega)]
      exact ih hrest fun n hn => hsame n (mem_cons_of_mem _ hn)

theorem Nodes.eq_zero_iff (h : Nodes m a l) : a = 0 ↔ l = [] := by
  cases l with
  | nil => exact ⟨fun _ => rfl, fun _ => h⟩
  | cons n rest => exact ⟨fun ha => absurd ha h.2.1, fun hl => (nomatch hl)⟩

theorem word_writeNode (m : Mem) (device : Nat) (hsector : sector < 2 ^ 32) (hlocation : location < 2 ^ 32) :
    Mem.word (writeNode m sector device location) 4 (location + 4) = sector ∧
      Mem.word (writeNode m sector device location) 4 (location + 8) = location ∧
      Mem.word (writeNode m sector device location) 4 (location + 12) = 0 := by
  refine ⟨?_, ?_, ?_⟩
  · rw [writeNode, Mem.word_setWord_of_disjoint _ _ (by omega),
      Mem.word_setWord_of_disjoint _ _ (by omega), Mem.word_setWord]
    exact Nat.mod_eq_of_lt hsector
  · rw [writeNode, Mem.word_setWord_of_disjoint _ _ (by omega), Mem.word_setWord]
    exact Nat.mod_eq_of_lt hlocation
  · rw [writeNode, Mem.word_setWord]
    rfl

theorem writeNode_of_disjoint (m : Mem) (h : i < location ∨ location + 16 ≤ i) : writeNode m sector device location i = m i := by
  unfold writeNode
  rw [Mem.setWord_of_disjoint _ _ (by omega), Mem.setWord_of_disjoint _ _ (by omega),
    Mem.setWord_of_disjoint _ _ (by omega), Mem.setWord_of_disjoint _ _ (by omega)]

theorem Nodes.append (h : Nodes m a l) (hl : l.getLast? = some n)
    (hapart : l.Pairwise fun n n' => NoOverlap n.location n'.location) (hx : ∀ n ∈ l, NoOverlap n.location x.location)
    (hxlt : x.location < 2 ^ 32) (hnew : Nodes m x.location [x]) :
    Nodes (Mem.setWord m 4 (n.location + 12) x.location) a (l ++ [x]) := by
  induction l generalizing a with
  | nil => cases hl
  | cons y rest ih =>
    obtain ⟨rfl, hne, hsector, hlocation, hrest⟩ := h
    cases rest with
    | nil =>
      obtain rfl : y = n := by simpa using hl
      have hover := hx y mem_cons_self
      refine ⟨rfl, hne, ?_, ?_, ?_⟩
      · rw [Mem.word_setWord_of_disjoint _ _ (by omega), hsector]
      · rw [Mem.word_setWord_of_disjoint _ _ (by omega), hlocation]
      · rw [Mem.word_setWord, show x.location % 256 ^ 4 = x.location from Nat.mod_eq_of_lt hxlt]
        apply hnew.congr
        intro n hn i hlo hhi
        rw [mem_singleton.mp hn] at hlo hhi
        unfold NoOverlap at hover
        simp only [bsize] at hover
        exact Mem.setWord_of_disjoint _ _ (by omega)
    | cons z rest =>
      rw [getLast?_cons_cons] at hl
      have hover := (pairwise_cons.mp hapart).1 n (mem_of_getLast? hl)
      unfold NoOverlap at hover
      simp only [bsize] at hover
      refine ⟨rfl, hne, ?_, ?_, ?_⟩
      · rw [Mem.word_setWord_of_disjoint _ _ (by omega), hsector]
      · rw [Mem.word_setWord_of_disjoint _ _ (by omega), hlocation]
      · rw [Mem.word_setWord_of_disjoint _ _ (by omega)]
        exact ih hrest hl (pairwise_cons.mp hapart).2 fun n hn => hx n (mem_cons_of_mem _ hn)

/-- The kernel's variables and a process's memory hold the buffers that are not yet filled. -/
structure Queued (s : State P) : Prop where
  nodes : ∀ p, (∀ n ∈ s.pending, n.proc = p) → Nodes (s.mem p) s.queue.idequeue s.pending
  last : ∀ n, s.pending.getLast? = some n → s.queue.last = n.location
  apart : s.pending.Pairwise fun n n' => NoOverlap n.location n'.location

structure Served (s : State P) : Prop where
  settled : s.ctl.Settled
  nodup : s.idequeue.Nodup
  kernel : ∀ b rest, s.idequeue = b :: rest → s.ctl.Serving (s.bufs b).request
  exokernel : s.idequeue = [] → s.ctl.Idle ∨
    ∃ n rest, s.pending = n :: rest ∧ s.ctl.Serving (.read n.sector) ∧ s.ctl.busy = false

/-- Both queues are first in, first out, and every request came back with its own sector. -/
structure Faithful (s : State P) : Prop where
  requests : s.requests = s.completions.map Completion.buf ++ s.idequeue
  completions : ∀ c ∈ s.completions, c.data = c.stored
  asked : s.asked = s.deliveries.map Delivery.node ++ s.pending
  deliveries : ∀ d ∈ s.deliveries, d.got = d.want

/-- What every step keeps, if it keeps the drivers apart. -/
structure Inv (s : State P) : Prop where
  served : Served s
  queued : Queued s
  faithful : Faithful s

variable {s s' : State P} {p : P} {buf : KBuf} {q : Queue}

/-! ### Kernel requests -/

theorem iderw_ok (h : iderw s b buf = some (.ok s')) :
    b ∉ s.idequeue ∧ s' = { s with
      bufs := update s.bufs b buf
      idequeue := s.idequeue ++ [b]
      requests := s.requests ++ [b]
      ctl := if s.idequeue = [] then idestart s.ctl buf else s.ctl } := by
  unfold iderw at h
  split at h
  · cases h
  · rename_i hfree
    split at h
    · cases h
    · cases h
      exact ⟨hfree, rfl⟩

theorem Served.iderw (h : Served s) (hsep : s.idequeue = [] → s.ctl.Idle)
    (hstep : Ide.iderw s b buf = some (.ok s')) : Served s' := by
  obtain ⟨hfree, rfl⟩ := iderw_ok hstep
  refine ⟨?_, ?_, ?_, fun hnil => absurd hnil (by simp)⟩
  · change (if s.idequeue = [] then idestart s.ctl buf else s.ctl).Settled
    split
    · exact s.ctl.settled_issue _
    · exact h.settled
  · exact nodup_append.mpr ⟨h.nodup, pairwise_singleton _ b, fun c hc d hd heq => by
      rw [mem_singleton.mp hd] at heq
      exact hfree (heq ▸ hc)⟩
  · intro c rest hqueue
    change s.idequeue ++ [b] = c :: rest at hqueue
    change (if s.idequeue = [] then idestart s.ctl buf else s.ctl).Serving
      (update s.bufs b buf c).request
    cases hold : s.idequeue with
    | nil =>
      rw [hold] at hqueue
      cases hqueue
      rw [if_pos rfl, update_self]
      exact (hsep hold).issue _
    | cons d rest' =>
      rw [hold] at hqueue
      cases hqueue
      have hne : c ≠ b := by
        intro heq
        apply hfree
        rw [hold, ← heq]
        exact mem_cons_self
      rw [if_neg (by simp), update_of_ne hne]
      exact h.kernel c rest' hold

theorem Inv.iderw (h : Inv s) (hsep : s.idequeue = [] → s.ctl.Idle)
    (hstep : Ide.iderw s b buf = some (.ok s')) : Inv s' := by
  have hserved := h.served.iderw hsep hstep
  obtain ⟨-, rfl⟩ := iderw_ok hstep
  refine ⟨hserved, ⟨h.queued.nodes, h.queued.last, h.queued.apart⟩, ?_, h.faithful.completions,
    h.faithful.asked, h.faithful.deliveries⟩
  change s.requests ++ [b] = s.completions.map Completion.buf ++ (s.idequeue ++ [b])
  rw [h.faithful.requests, append_assoc]

theorem Inv.complete (h : Inv s) (hbusy : s.ctl.busy = true) :
    Inv { s with ctl := s.ctl.idewait } := by
  refine ⟨⟨h.served.settled.idewait, h.served.nodup, fun b rest hqueue =>
    (h.served.kernel b rest hqueue).idewait, fun hnil => ?_⟩,
    ⟨h.queued.nodes, h.queued.last, h.queued.apart⟩, ⟨h.faithful.requests, h.faithful.completions,
    h.faithful.asked, h.faithful.deliveries⟩⟩
  obtain hidle | ⟨n, rest, -, -, hdone⟩ := h.served.exokernel hnil
  · rw [hidle.1] at hbusy
    cases hbusy
  · rw [hdone] at hbusy
    cases hbusy

theorem Controller.Serving.take (h : c.Serving cmd) (hirqs : c.irqs ≠ 0) :
    c.acknowledge.Idle := by
  obtain ⟨-, ⟨-, hzero⟩ | ⟨hbusy, hone⟩⟩ := h
  · exact absurd hzero hirqs
  · exact ⟨hbusy, by rw [acknowledge, hone]⟩

theorem kernelInterrupt_of_not_busy {rest : List Nat} (h : s.ctl.busy = false) :
    kernelInterrupt s b rest = { s with
      bufs := update s.bufs b { s.bufs b with
        data := if (s.bufs b).dirty then (s.bufs b).data else s.ctl.insl, valid := true, dirty := false }
      idequeue := rest
      completions := s.completions ++ [⟨b, if (s.bufs b).dirty then (s.bufs b).data else s.ctl.insl,
        s.ctl.disk (s.bufs b).sector⟩]
      ctl := startNext s.ctl s.bufs rest } := by
  simp only [kernelInterrupt, Controller.idewait_of_not_busy h, ite_self]

theorem Inv.kernelInterrupt {rest : List Nat} (h : Inv s) (hirqs : s.ctl.irqs ≠ 0) (hqueue : s.idequeue = b :: rest) :
    Inv (kernelInterrupt { s with ctl := s.ctl.acknowledge } b rest) := by
  have hserving := h.served.kernel b rest hqueue
  have hidle := hserving.take hirqs
  have hdata := h.served.settled.request hserving.1 hidle.1
  have hnodup := h.served.nodup
  rw [hqueue] at hnodup
  rw [kernelInterrupt_of_not_busy (s := { s with ctl := s.ctl.acknowledge }) hidle.1]
  refine ⟨⟨?_, (nodup_cons.mp hnodup).2, ?_, ?_⟩,
    ⟨h.queued.nodes, h.queued.last, h.queued.apart⟩, ?_, ?_, h.faithful.asked, h.faithful.deliveries⟩
  · cases rest with
    | nil => exact h.served.settled
    | cons b' rest => exact Controller.settled_issue _ _
  · intro c rest' hrest
    cases hrest
    have hne : c ≠ b := fun heq => (nodup_cons.mp hnodup).1 (heq ▸ mem_cons_self)
    change (idestart _ (s.bufs c)).Serving (update s.bufs b _ c).request
    rw [update_of_ne hne]
    exact hidle.issue _
  · intro hnil
    cases hnil
    exact Or.inl hidle
  · change s.requests = (s.completions ++ [_]).map Completion.buf ++ rest
    rw [h.faithful.requests, hqueue]
    simp
  · intro c hc
    rcases mem_append.mp hc with hc | hc
    · exact h.faithful.completions c hc
    · rw [mem_singleton.mp hc]
      exact hdata

/-! ### Exokernel requests -/

theorem Inv.exReadSector (h : Inv s) (hsep : s.queue.idequeue ≠ 0 → s.idequeue = [] ∧
    s.ctl.Idle ∧ ∀ n ∈ s.pending, n.proc = p) :
    Inv { s with ctl := processBuffer s.queue (s.mem p) s.ctl } := by
  unfold processBuffer
  split
  · exact h
  · rename_i hhead
    obtain ⟨hnil, hidle, hproc⟩ := hsep hhead
    have hnodes := h.queued.nodes p hproc
    obtain ⟨n, rest, hpending⟩ := exists_cons_of_ne_nil (mt hnodes.eq_zero_iff.mpr hhead)
    rw [hpending] at hnodes
    rw [hnodes.2.2.1]
    obtain ⟨hserving, hbusy, hsettled⟩ := hidle.ideread n.sector
    refine ⟨⟨hsettled, h.served.nodup, ?_, fun _ => Or.inr ⟨n, rest, hpending, hserving, hbusy⟩⟩,
      ⟨h.queued.nodes, h.queued.last, h.queued.apart⟩, ⟨h.faithful.requests,
      h.faithful.completions, h.faithful.asked, h.faithful.deliveries⟩⟩
    intro b rest hqueue
    rw [hnil] at hqueue
    cases hqueue

theorem nodes_writeNode (m : Mem) (device : Nat) (hsector : sector < 2 ^ 32)
    (hlocation : location < 2 ^ 32) (hne : location ≠ 0) :
    Nodes (writeNode m sector device location) location [(⟨p, sector, location⟩ : Node P)] := by
  obtain ⟨hs, hl, hn⟩ := word_writeNode m device hsector hlocation
  exact ⟨rfl, hne, hs, hl, hn⟩

theorem nodes_exAddbuffer (h : Nodes m q.idequeue l) (hlast : ∀ n, l.getLast? = some n → q.last = n.location)
    (hapart : l.Pairwise fun n n' => NoOverlap n.location n'.location)
    (hsector : sector < 2 ^ 32) (hlocation : location < 2 ^ 32) (hne : location ≠ 0)
    (hsep : ∀ n ∈ l, NoOverlap n.location location) :
    Nodes (exAddbuffer q m sector device location).2 (exAddbuffer q m sector device location).1.idequeue
      (l ++ [⟨p, sector, location⟩]) := by
  have hnew := nodes_writeNode (p := p) m device hsector hlocation hne
  unfold exAddbuffer
  split
  · rename_i hhead
    rw [h.eq_zero_iff.mp hhead]
    exact hnew
  · rename_i hhead
    have hsome : l ≠ [] := mt h.eq_zero_iff.mpr hhead
    have hl := getLast?_eq_some_getLast hsome
    rw [hlast _ hl]
    have hkept : Nodes (writeNode m sector device location) q.idequeue l := by
      apply h.congr
      intro n hn i hlo hhi
      have hover := hsep n hn
      unfold NoOverlap at hover
      simp only [bsize] at hover
      exact writeNode_of_disjoint m (by omega)
    exact hkept.append (x := ⟨p, sector, location⟩) hl hapart hsep hlocation hnew

def readNext (c : Controller) : List (Node P) → Controller
  | [] => c
  | n :: _ => ideread c n.sector

theorem processBuffer_eq (h : Nodes m q.idequeue l) :
    processBuffer q m c = readNext c l := by
  cases l with
  | nil => exact if_pos h
  | cons n rest =>
    rw [processBuffer, if_neg h.2.1, h.2.2.1]
    rfl

theorem exIdeintr_spec (h : Nodes m q.idequeue (n :: rest))
    (hapart : (n :: rest).Pairwise fun n n' => NoOverlap n.location n'.location)
    (hbusy : c.busy = false) (hcommand : c.command = some (.read n.sector)) :
    let r := exIdeintr q m c
    r.2.1 = Mem.copyIn m n.location bsize (c.disk n.sector).mem ∧ Nodes r.2.1 r.1.idequeue rest ∧
      r.1.last = (if rest = [] then 0 else q.last) ∧ r.2.2 = readNext c rest := by
  obtain ⟨hhead, hne, hsector, hlocation, hrest⟩ := h
  have hinsl : c.insl = c.disk n.sector := by rw [Controller.insl, hcommand]; rfl
  have hcopy : Mem.copyIn m (Mem.word m 4 (q.idequeue + 8)) bsize c.insl.mem =
      Mem.copyIn m n.location bsize (c.disk n.sector).mem := by rw [hlocation, hinsl, hhead]
  have hkept : Nodes (Mem.copyIn m n.location bsize (c.disk n.sector).mem)
      (Mem.word m 4 (q.idequeue + 12)) rest := by
    apply hrest.congr
    intro n' hn' i hlo hhi
    have hover := (pairwise_cons.mp hapart).1 n' hn'
    unfold NoOverlap at hover
    apply Mem.copyIn_of_disjoint
    simp only [bsize] at hover ⊢
    omega
  simp only [exIdeintr, Controller.idewait_of_not_busy hbusy, hcopy]
  refine ⟨trivial, hkept, ?_, processBuffer_eq hkept⟩
  exact if_congr hrest.eq_zero_iff rfl rfl

variable [DecidableEq P]

theorem Inv.exAddbuffer (h : Inv s) (hsector : sector < 2 ^ 32) (hlocation : location < 2 ^ 32) (hne : location ≠ 0)
    (hsep : ∀ n ∈ s.pending, n.proc = p ∧ NoOverlap n.location location) :
    Inv { s with
      queue := (Ide.exAddbuffer s.queue (s.mem p) sector device location).1
      mem := update s.mem p (Ide.exAddbuffer s.queue (s.mem p) sector device location).2
      asked := s.asked ++ [⟨p, sector, location⟩]
      pending := s.pending ++ [⟨p, sector, location⟩] } := by
  obtain ⟨hnodes, hlast, hapart⟩ := h.queued
  have hold := hnodes p fun n hn => (hsep n hn).1
  refine ⟨⟨h.served.settled, h.served.nodup, h.served.kernel, ?_⟩, ⟨?_, ?_, ?_⟩,
    ⟨h.faithful.requests, h.faithful.completions, ?_, h.faithful.deliveries⟩⟩
  · intro hnil
    obtain hidle | ⟨n, rest, hpending, hserving⟩ := h.served.exokernel hnil
    · exact Or.inl hidle
    · exact Or.inr ⟨n, _, by rw [hpending]; rfl, hserving⟩
  · intro p' hproc
    obtain rfl : p = p' := hproc _ (mem_append_right _ mem_cons_self)
    change Nodes (update s.mem p _ p) _ _
    rw [update_self]
    exact nodes_exAddbuffer hold hlast hapart hsector hlocation hne fun n hn => (hsep n hn).2
  · intro n hn
    rw [getLast?_append] at hn
    cases hn
    change (Ide.exAddbuffer s.queue (s.mem p) sector device location).1.last = location
    unfold Ide.exAddbuffer
    split <;> rfl
  · apply pairwise_append.mpr ⟨hapart, pairwise_singleton _ _, ?_⟩
    intro n hn n' hn'
    rw [mem_singleton.mp hn']
    exact (hsep n hn).2
  · change s.asked ++ [_] = s.deliveries.map Delivery.node ++ (s.pending ++ [_])
    rw [h.faithful.asked, append_assoc]

theorem Inv.exInterrupt (h : Inv s) (hirqs : s.ctl.irqs ≠ 0) (hnil : s.idequeue = [])
    (hproc : ∀ n ∈ s.pending, n.proc = p) :
    Inv (exInterrupt { s with ctl := s.ctl.acknowledge } p) := by
  obtain hidle | ⟨n, rest, hpending, hserving, hbusy⟩ := h.served.exokernel hnil
  · exact absurd hidle.2 hirqs
  · have hidle := hserving.take hirqs
    obtain ⟨hnodes, hlast, hapart⟩ := h.queued
    have hmem : n ∈ s.pending := by
      rw [hpending]
      exact mem_cons_self
    have hfirst := hnodes p hproc
    rw [hpending] at hfirst hapart
    obtain ⟨hmem', hnodes', hlast', hctl⟩ := exIdeintr_spec (c := s.ctl.acknowledge) hfirst hapart hbusy
      hserving.1
    have hnext : (readNext s.ctl.acknowledge rest).Idle ∨ ∃ n' rest', rest = n' :: rest' ∧
        (readNext s.ctl.acknowledge rest).Serving (.read n'.sector) ∧
        (readNext s.ctl.acknowledge rest).busy = false := by
      cases rest with
      | nil => exact Or.inl hidle
      | cons n' rest => exact Or.inr ⟨n', rest, rfl, (hidle.ideread n'.sector).1, rfl⟩
    have hsettled : (readNext s.ctl.acknowledge rest).Settled := by
      cases rest with
      | nil => exact h.served.settled
      | cons n' rest => exact (hidle.ideread n'.sector).2.2
    have hgot : blockAt (Mem.copyIn (s.mem p) n.location bsize (s.ctl.disk n.sector).mem) n.location =
        s.ctl.disk n.sector := by
      funext i
      rw [blockAt, Mem.copyIn_of_lt _ _ i.isLt, Bytes.mem, dif_pos i.isLt]
    have hwait : s.ctl.acknowledge.idewait = s.ctl.acknowledge := Controller.idewait_of_not_busy hbusy
    have hnewctl : (Ide.exInterrupt { s with ctl := s.ctl.acknowledge } p).ctl =
      readNext s.ctl.acknowledge rest := hctl
    have hleft : (Ide.exInterrupt { s with ctl := s.ctl.acknowledge } p).pending = rest := by
      change s.pending.tail = rest
      rw [hpending]
      rfl
    refine ⟨⟨?_, h.served.nodup, ?_, fun _ => ?_⟩, ⟨?_, ?_, ?_⟩, ⟨h.faithful.requests,
      h.faithful.completions, ?_, ?_⟩⟩
    · rw [hnewctl]
      exact hsettled
    · intro b rest' hqueue
      change s.idequeue = b :: rest' at hqueue
      rw [hnil] at hqueue
      cases hqueue
    · rw [hnewctl, hleft]
      exact hnext
    · rw [hleft]
      intro p' hproc'
      change Nodes (update s.mem p _ p') _ rest
      cases rest with
      | nil => exact hnodes'
      | cons n' rest =>
        have hn' : n' ∈ s.pending := by
          rw [hpending]
          exact mem_cons_of_mem _ mem_cons_self
        obtain rfl : p = p' := (hproc n' hn').symm.trans (hproc' n' mem_cons_self)
        rw [update_self]
        exact hnodes'
    · rw [hleft]
      intro n' hn'
      change (exIdeintr s.queue (s.mem p) s.ctl.acknowledge).1.last = n'.location
      rw [hlast', if_neg (fun hnil => by rw [hnil] at hn'; cases hn')]
      apply hlast
      rw [hpending, getLast?_cons, hn']
      rfl
    · rw [hleft]
      exact (pairwise_cons.mp hapart).2
    · rw [hleft]
      change s.asked = (s.deliveries ++ (s.pending.head?.toList.map _)).map Delivery.node ++ rest
      rw [h.faithful.asked, hpending]
      simp
    · intro d hd
      change d ∈ s.deliveries ++ (s.pending.head?.toList.map _) at hd
      rw [hpending] at hd
      rcases mem_append.mp hd with hd | hd
      · exact h.faithful.deliveries d hd
      · simp only [head?_cons, Option.toList_some, map_cons, map_nil,
          mem_singleton] at hd
        rw [hd]
        change blockAt (update s.mem p _ n.proc) n.location = s.ctl.acknowledge.idewait.disk n.sector
        rw [hproc n hmem, update_self, hwait, hmem']
        exact hgot

theorem Inv.ideintr {proc : Option P} (h : Inv s) (hirqs : s.ctl.irqs ≠ 0)
    (hsep : Separate s (.ideintr proc))
    (hstep : Ide.ideintr { s with ctl := s.ctl.acknowledge } proc = .ok s') : Inv s' := by
  unfold Ide.ideintr at hstep
  split at hstep
  · rename_i b rest hqueue
    cases hstep
    exact h.kernelInterrupt hirqs hqueue
  · cases hstep
  · rename_i p hnil
    obtain ⟨hexo, hproc⟩ := hsep hnil
    rw [if_pos hexo] at hstep
    cases hstep
    exact h.exInterrupt hirqs hnil hproc

omit [DecidableEq P] in
theorem Inv.reset (h : Inv s) (hnone : s.pending = []) :
    Inv { s with queue := resetTransferCount, pending := [] } := by
  refine ⟨⟨h.served.settled, h.served.nodup, h.served.kernel, fun hnil => ?_⟩,
    ⟨fun _ _ => rfl, fun _ hn => (nomatch hn), List.Pairwise.nil⟩,
    ⟨h.faithful.requests, h.faithful.completions, hnone ▸ h.faithful.asked, h.faithful.deliveries⟩⟩
  obtain hidle | ⟨n, rest, hpending, -⟩ := h.served.exokernel hnil
  · exact Or.inl hidle
  · rw [hnone] at hpending
    cases hpending

theorem Inv.step {a : Action P} (h : Inv s) (hsep : Separate s a)
    (hstep : Ide.step s a = some (.ok s')) : Inv s' := by
  cases a with
  | iderw b buf => exact h.iderw hsep hstep
  | exRegister p =>
    cases hstep
    exact ⟨⟨h.served.settled, h.served.nodup, h.served.kernel, h.served.exokernel⟩,
      ⟨h.queued.nodes, h.queued.last, h.queued.apart⟩, ⟨h.faithful.requests,
      h.faithful.completions, h.faithful.asked, h.faithful.deliveries⟩⟩
  | exAddbuffer p sector device location =>
    rw [Ide.step] at hstep
    split at hstep
    · rename_i hwords
      cases hstep
      exact h.exAddbuffer hwords.1 hwords.2 hsep.1 hsep.2
    · cases hstep
  | exReadSector p =>
    cases hstep
    exact h.exReadSector hsep
  | exResetTransferCount =>
    cases hstep
    exact h.reset hsep
  | complete =>
    rw [Ide.step] at hstep
    split at hstep
    · rename_i hbusy
      cases hstep
      exact h.complete hbusy
    · cases hstep
  | ideintr proc =>
    rw [Ide.step] at hstep
    split at hstep
    · cases hstep
    · rename_i hirqs
      exact h.ideintr hirqs hsep (Option.some.inj hstep)

omit [DecidableEq P] in
theorem inv_ideinit (disk : Nat → Block) (mem : P → Mem) : Inv (ideinit disk mem) :=
  ⟨⟨fun _ _ hcommand => (nomatch hcommand), nodup_nil, fun _ _ hqueue => (nomatch hqueue),
    fun _ => Or.inl ⟨rfl, rfl⟩⟩, ⟨fun _ _ => rfl, fun _ hn => (nomatch hn), List.Pairwise.nil⟩,
    ⟨rfl, fun _ hc => (nomatch hc), rfl, fun _ hd => (nomatch hd)⟩⟩

/-- In a run whose steps keep the drivers apart, both queues are first in, first out, every request of
the kernel came back with its buffer and its sector equal, every buffer of the exokernel got the sector
queued for it, and the disk is at work on the kernel's queue whenever that is not empty. -/
theorem disk_requests_do_not_mix (disk : Nat → Block) (mem : P → Mem) {s : State P}
    (h : ((system disk mem).restrict Separate).Reachable s) :
    s.requests = s.completions.map Completion.buf ++ s.idequeue ∧
      (∀ c ∈ s.completions, c.data = c.stored) ∧
      s.asked = s.deliveries.map Delivery.node ++ s.pending ∧
      (∀ d ∈ s.deliveries, d.got = d.want) ∧
      (s.idequeue ≠ [] → s.ctl.busy = true ∨ s.ctl.irqs = 1) := by
  have hinv : Inv s := by
    apply h.invariant
    · intro s hs
      rw [show s = ideinit disk mem from hs]
      exact inv_ideinit disk mem
    · intro s a s' hs hstep
      exact hs.step hstep.1 hstep.2
  obtain ⟨hrequests, hcompletions, hasked, hdeliveries⟩ := hinv.faithful
  refine ⟨hrequests, hcompletions, hasked, hdeliveries, fun hqueue => ?_⟩
  obtain ⟨b, rest, hqueue⟩ := exists_cons_of_ne_nil hqueue
  exact (hinv.served.kernel b rest hqueue).2.imp And.left And.right

instance (s : State P) : (a : Action P) → Decidable (Separate s a)
  | .iderw _ _ => inferInstanceAs (Decidable (s.idequeue = [] → s.ctl.Idle))
  | .exAddbuffer p _ _ location => inferInstanceAs
      (Decidable (location ≠ 0 ∧ ∀ n ∈ s.pending, n.proc = p ∧ NoOverlap n.location location))
  | .exReadSector p => inferInstanceAs
      (Decidable (s.queue.idequeue ≠ 0 → s.idequeue = [] ∧ s.ctl.Idle ∧ ∀ n ∈ s.pending, n.proc = p))
  | .exResetTransferCount => decidable_of_iff (s.pending.length = 0) List.length_eq_zero_iff
  | .ideintr none => inferInstanceAs (Decidable (s.idequeue ≠ []))
  | .ideintr (some p) => inferInstanceAs
      (Decidable (s.idequeue = [] → s.exo p = true ∧ ∀ n ∈ s.pending, n.proc = p))
  | .exRegister _ => inferInstanceAs (Decidable True)
  | .complete => inferInstanceAs (Decidable True)

def numberedDisk : Nat → Block := fun sector _ => UInt8.ofNat sector

theorem disk_requests_do_not_mix_in_turn :
    ∃ s : State (Fin 1), ((system numberedDisk fun _ _ => 0).restrict Separate).Reachable s ∧
      s.completions.length = 1 ∧ (∀ c ∈ s.completions, c.data = c.stored) ∧
      s.deliveries.length = 1 ∧ ∀ d ∈ s.deliveries, d.got = d.want := by
  obtain ⟨s, hs, htest⟩ := System.exists_reachable_of_follow Separate (step (P := Fin 1))
    (ideinit numberedDisk fun _ _ => 0)
    [.iderw 0 ⟨5, fun _ => 0, false, false⟩, .complete, .exRegister 0, .exAddbuffer 0 7 1 4096,
      .ideintr none, .exReadSector 0, .ideintr (some 0)]
    (fun s => decide (s.completions.length = 1 ∧ s.deliveries.length = 1)) (by decide +kernel)
  rw [decide_eq_true_eq] at htest
  obtain ⟨-, hcompletions, -, hdeliveries, -⟩ := disk_requests_do_not_mix numberedDisk (fun _ _ => 0) hs
  exact ⟨s, hs, htest.1, hcompletions, htest.2, hdeliveries⟩

/-- A kernel read of sector 5 is done but its interrupt not yet taken when the exokernel reads sector 7:
the kernel's buffer comes back with sector 7. -/
theorem kernel_read_gets_exokernel_sector :
    ∃ s : State (Fin 1), (system numberedDisk fun _ _ => 0).Reachable s ∧
      ∃ c ∈ s.completions, c.buf = 0 ∧ (s.bufs 0).sector = 5 ∧ c.data 0 = 7 ∧ c.stored 0 = 5 := by
  obtain ⟨s, hs, htest⟩ := System.exists_reachable_of_follow (fun _ _ => True) (step (P := Fin 1))
    (ideinit numberedDisk fun _ _ => 0)
    [.iderw 0 ⟨5, fun _ => 0, false, false⟩, .complete, .exRegister 0, .exAddbuffer 0 7 1 4096,
      .exReadSector 0, .ideintr (some 0)]
    (fun s => s.completions.any fun c => decide (c.buf = 0 ∧ (s.bufs 0).sector = 5 ∧ c.data 0 = 7 ∧
      c.stored 0 = 5)) (by decide +kernel)
  obtain ⟨c, hc, hdata⟩ := any_eq_true.mp htest
  exact ⟨s, hs.of_restrict, c, hc, decide_eq_true_eq.mp hdata⟩

end RainOS.Ide
