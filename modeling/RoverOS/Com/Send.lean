import RoverOS.Basic
import RoverOS.Library.History

-- `com.c`: a serial port, and the code that writes to it.

namespace RoverOS.Com

abbrev Byte := BitVec 8

def OFFSET_DLV_HIGH : Nat := 0x0
def OFFSET_DLV_LOW  : Nat := 0x1
def OFFSET_FIFO     : Nat := 0x2
def OFFSET_LCR      : Nat := 0x3

def DLV_DIVISOR : Nat := 115200

-- The registers, the bytes that are to be sent, and the ones that have been sent. `fifo` is how many bytes the
-- port can hold for sending once its FIFO is on.
structure Uart where
  lcr  : Byte
  dll  : Byte
  dlm  : Byte
  ier  : Byte
  fcr  : Byte
  fifo : Nat
  thr  : List Byte
  line : List Byte
  deriving DecidableEq, Repr

namespace Uart

variable (u : Uart)

-- Bit 7 of the line control register puts the divisor in the place of the first two registers.
def Dlab : Prop := u.lcr &&& 0x80 ≠ 0

instance : Decidable u.Dlab := inferInstanceAs (Decidable (_ ≠ _))

-- Bit 0 of the FIFO control register is what turns the FIFO on.
def depth : Nat := if u.fcr &&& 0x1 = 0 then 1 else max 1 u.fifo

-- `outb(port+offset,b)`, with room for `b` where it is to be sent. Bit 2 of the FIFO control register throws away
-- what is to be sent.
def outb (offset : Nat) (b : Byte) : Uart :=
  match offset with
  | 0 => if u.Dlab then { u with dll := b } else { u with thr := u.thr ++ [b] }
  | 1 => if u.Dlab then { u with dlm := b } else { u with ier := b }
  | 2 => { u with fcr := b, thr := if b &&& 0x4 ≠ 0 then [] else u.thr }
  | 3 => { u with lcr := b }
  | _ => u

-- `inb(port+OFFSET_LSR)` reads `r`: bit 5 says that there is nothing to be sent. The code looks at no other bit.
def Lsr (r : Byte) : Prop := r &&& (0x1 <<< 5) ≠ 0 ↔ u.thr = []

end Uart

def initCOMPort (u : Uart) : Uart :=
  let u := u.outb OFFSET_LCR 0x80
  let baud : BitVec 16 := BitVec.ofNat 16 (DLV_DIVISOR / 12)
  let u := u.outb OFFSET_DLV_HIGH ((baud &&& 0x00FF).setWidth 8)
  let u := u.outb OFFSET_DLV_LOW ((baud &&& 0xFF00).setWidth 8)
  let u := u.outb OFFSET_LCR 0x83
  u.outb OFFSET_FIFO 0x27

def checkEmpty (r : Byte) : Bool := r &&& (0x1 <<< 5) ≠ 0

-- The bytes that `writeString` has yet to write. `ready` says that `checkEmpty` has returned `true` for the first.
structure Writer where
  left  : List Byte
  ready : Bool
  deriving DecidableEq, Repr

-- The port, and the code that runs with the code that it has interrupted below.
structure Debug where
  uart     : Uart
  contexts : List Writer
  deriving DecidableEq, Repr

inductive Event
  | writeString (str : List Byte)
  | checkEmpty (r : Byte)
  | outb (b : Byte)
  | interrupt
  | iret
  | sent
  deriving DecidableEq, Repr

-- The port sends at any time. What becomes of a byte for which there is no room differs from port to port: it, or
-- one that came before it, is lost.
inductive Step : Debug → Event → Debug → Prop
  | writeString {u : Uart} {below : List Writer} {str : List Byte} :
    Step ⟨u, ⟨[], false⟩ :: below⟩ (.writeString str) ⟨u, ⟨str, false⟩ :: below⟩
  | checkEmpty {u : Uart} {below : List Writer} {b r : Byte} {l : List Byte} : u.Lsr r →
    Step ⟨u, ⟨b :: l, false⟩ :: below⟩ (.checkEmpty r) ⟨u, ⟨b :: l, checkEmpty r⟩ :: below⟩
  | outb {u : Uart} {below : List Writer} {b : Byte} {l : List Byte} : u.Dlab ∨ u.thr.length < u.depth →
    Step ⟨u, ⟨b :: l, true⟩ :: below⟩ (.outb b) ⟨u.outb 0 b, ⟨l, false⟩ :: below⟩
  | overrun {u : Uart} {below : List Writer} {b : Byte} {l thr : List Byte} : ¬u.Dlab → u.depth ≤ u.thr.length →
      thr.length ≤ u.thr.length →
    Step ⟨u, ⟨b :: l, true⟩ :: below⟩ (.outb b) ⟨{ u with thr := thr }, ⟨l, false⟩ :: below⟩
  | interrupt {u : Uart} {contexts : List Writer} :
    Step ⟨u, contexts⟩ .interrupt ⟨u, ⟨[], false⟩ :: contexts⟩
  | iret {u : Uart} {w : Writer} {below : List Writer} :
    Step ⟨u, ⟨[], false⟩ :: w :: below⟩ .iret ⟨u, w :: below⟩
  | sent {u : Uart} {contexts : List Writer} {b : Byte} {thr : List Byte} : u.thr = b :: thr →
    Step ⟨u, contexts⟩ .sent ⟨{ u with thr := thr, line := u.line ++ [b] }, contexts⟩

-- Which of the bytes that are written are sent.

def Event.byte : Event → Option Byte
  | .outb b => some b
  | _       => none

-- The bytes that were written to the port, in this order.
def written (ls : List (Debug × Event)) : List Byte :=
  ls.filterMap fun x => x.2.byte

-- What has been sent, and what is to be sent.
def Uart.bytes (u : Uart) : List Byte := u.line ++ u.thr

-- A byte is written for which there is no room.
def Full (s : Debug) (e : Event) : Prop := e.byte ≠ none ∧ s.uart.depth ≤ s.uart.thr.length

-- The code is interrupted between its look at the port and the write.
def Between (s : Debug) (e : Event) : Prop := e = .interrupt ∧ ∃ w ∈ s.contexts.head?, w.ready = true

instance (s : Debug) (e : Event) : Decidable (Between s e) :=
  inferInstanceAs (Decidable (_ ∧ ∃ w ∈ s.contexts.head?, w.ready = true))

variable {u : Uart} {s s' : Debug} {e : Event} {ls : List (Debug × Event)} {b r : Byte}

section Intact

theorem outb_thr (h : ¬u.Dlab) : u.outb 0 b = { u with thr := u.thr ++ [b] } := if_neg h

theorem Step.lcr (h : Step s e s') : s'.uart.lcr = s.uart.lcr := by
  cases h
  case outb u below b l _ =>
    have ho : (u.outb 0 b).lcr = u.lcr := by
      rw [Uart.outb]
      split_ifs
      case pos => rfl
      case neg => rfl
    exact ho
  all_goals rfl

theorem Step.dlab (h : Step s e s') (hd : ¬s.uart.Dlab) : ¬s'.uart.Dlab := by
  rw [Uart.Dlab, h.lcr]
  exact hd

-- A write adds one byte, or one is lost.
theorem Step.bytes (h : Step s e s') (hd : ¬s.uart.Dlab) :
    (¬Full s e → s'.uart.bytes = s.uart.bytes ++ e.byte.toList) ∧
      (Full s e → s'.uart.bytes.length ≤ s.uart.bytes.length) := by
  cases h
  case outb u below b l hr =>
    have hlt : u.thr.length < u.depth := hr.resolve_left hd
    have ho : (u.outb 0 b).bytes = u.bytes ++ [b] := by
      rw [outb_thr hd]
      exact (List.append_assoc ..).symm
    exact ⟨fun _ => ho, fun hf => absurd hlt (Nat.not_lt.mpr hf.right)⟩
  case overrun u below b l thr _ hf hl =>
    refine ⟨fun hn => absurd ⟨nofun, hf⟩ hn, fun _ => ?_⟩
    simpa only [Uart.bytes, List.length_append, Nat.add_le_add_iff_left] using hl
  case sent u contexts b thr hb =>
    refine ⟨fun _ => ?_, fun hf => absurd rfl hf.left⟩
    simp [Uart.bytes, Event.byte, hb]
  all_goals exact ⟨fun _ => (List.append_nil _).symm, fun hf => absurd rfl hf.left⟩

theorem written_snoc : written (ls ++ [(s, e)]) = written ls ++ e.byte.toList := by
  rw [written, List.filterMap_append]
  cases hb : e.byte
  case none => simp [written, hb]
  case some => simp [written, hb]

-- A byte that is lost is missing for good.
theorem bytes_iff (t : History Step s ls s') (hd : ¬s.uart.Dlab) :
    ¬s'.uart.Dlab ∧ s'.uart.bytes.length ≤ (s.uart.bytes ++ written ls).length ∧
      (s'.uart.bytes = s.uart.bytes ++ written ls ↔ ∀ x ∈ ls, ¬Full x.1 x.2) := by
  induction t
  case nil => simp [hd, written]
  case snoc s₂ s₃ e ls t hs hi =>
    have ⟨hd₂, hle, hiff⟩ := hi
    have ⟨hkept, hlost⟩ := hs.bytes hd₂
    rw [written_snoc, ← List.append_assoc]
    have hlen : ((s.uart.bytes ++ written ls) ++ e.byte.toList).length =
        (s.uart.bytes ++ written ls).length + e.byte.toList.length := List.length_append
    simp only [List.forall_mem_append, List.forall_mem_singleton]
    by_cases hf : Full s₂ e
    case neg =>
      have hb := hkept hf
      refine ⟨hs.dlab hd₂, ?_, ?_⟩
      · rw [hb, hlen, List.length_append]
        exact Nat.add_le_add_right hle _
      · rw [hb, List.append_left_inj, hiff, and_iff_left hf]
    case pos =>
      have hpos : 0 < e.byte.toList.length := by
        have ⟨b, hb⟩ := Option.ne_none_iff_exists'.mp hf.left
        simp [hb]
      have hl := hlost hf
      refine ⟨hs.dlab hd₂, by omega, iff_of_false (fun he => ?_) fun h => h.right hf⟩
      have hn := (congrArg List.length he).trans hlen
      omega

end Intact

section Polled

-- The one that will write has found the port empty, and no one else has written since.
structure Polled (s : Debug) : Prop where
  empty : ∀ w ∈ s.contexts.head?, w.ready = true → s.uart.thr = []
  below : ∀ w ∈ s.contexts.tail, w.ready = false

theorem checkEmpty_iff (h : u.Lsr r) : checkEmpty r = true ↔ u.thr = [] := by
  rw [checkEmpty, decide_eq_true_iff]
  exact h

theorem Polled.cons {w : Writer} {below : List Writer} (ht : w.ready = true → u.thr = [])
    (hb : ∀ v ∈ below, v.ready = false) : Polled ⟨u, w :: below⟩ where
  empty _ hv hr := ht (Option.some.inj hv ▸ hr)
  below         := hb

theorem Polled.step (h : Polled s) (hs : Step s e s') (hn : ¬Between s e) : Polled s' := by
  cases hs
  case writeString   => exact .cons nofun h.below
  case checkEmpty hl => exact .cons (checkEmpty_iff hl).mp h.below
  case outb          => exact .cons nofun h.below
  case overrun       => exact .cons nofun h.below
  case sent hb       => exact ⟨fun w hw hr => (nomatch hb.symm.trans (h.empty w hw hr)), h.below⟩
  case interrupt u contexts =>
    refine .cons nofun fun v hv => ?_
    cases contexts
    case nil => cases hv
    case cons w below =>
      cases List.mem_cons.mp hv
      case inl he => exact eq_false_of_ne_true fun hr => hn ⟨rfl, w, rfl, he ▸ hr⟩
      case inr hv => exact h.below v hv
  case iret u w below =>
    have hw : w.ready = false := h.below w (.head _)
    exact .cons (fun hr => nomatch hw.symm.trans hr) fun v hv => h.below v (.tail _ hv)

theorem depth_pos : 0 < u.depth := by
  rw [Uart.depth]
  split_ifs
  case pos => exact Nat.one_pos
  case neg => exact Nat.lt_of_lt_of_le Nat.one_pos (Nat.le_max_left ..)

theorem Polled.not_full (h : Polled s) (hs : Step s e s') : ¬Full s e := by
  intro ⟨hb, hf⟩
  have hthr : s.uart.thr = [] := by
    cases hs
    case outb    => exact h.empty _ rfl rfl
    case overrun => exact h.empty _ rfl rfl
    all_goals exact absurd rfl hb
  rw [hthr] at hf
  exact absurd hf (Nat.not_le.mpr depth_pos)

theorem not_full_of_polled (h : Polled s) (t : History Step s ls s') (hn : ∀ x ∈ ls, ¬Between x.1 x.2) :
    Polled s' ∧ ∀ x ∈ ls, ¬Full x.1 x.2 := by
  induction t
  case nil => exact ⟨h, nofun⟩
  case snoc t hs hi =>
    have ⟨hls, hl⟩ := List.forall_mem_append.mp hn
    have ⟨hp, hf⟩ := hi hls
    refine ⟨hp.step hs (hl _ (.head _)), List.forall_mem_append.mpr ⟨hf, ?_⟩⟩
    exact List.forall_mem_singleton.mpr (hp.not_full hs)

end Polled

section Send

-- Nothing that is written is lost, doubled or out of order exactly when no byte is written for which the port has
-- no room, and none is when no interrupt comes between a look at the port and the write.
theorem bytes_arrive_iff (hd : ¬u.Dlab) (t : History Step ⟨u, [⟨[], false⟩]⟩ ls s') :
    (s'.uart.bytes = u.bytes ++ written ls ↔ ∀ x ∈ ls, ¬Full x.1 x.2) ∧
    ((∀ x ∈ ls, ¬Between x.1 x.2) → s'.uart.bytes = u.bytes ++ written ls) := by
  have ⟨_, _, hiff⟩ := bytes_iff t hd
  have hp : Polled ⟨u, [⟨[], false⟩]⟩ := .cons nofun nofun
  exact ⟨hiff, fun hn => hiff.mpr (not_full_of_polled hp t hn).right⟩

end Send

section Init

-- The port takes every byte for a part of the divisor.
structure Silent (u : Uart) (ls : List (Debug × Event)) (s : Debug) : Prop where
  lcr  : s.uart.lcr = 0x83
  thr  : s.uart.thr = []
  line : s.uart.line = u.line
  dll  : s.uart.dll = (written ls).getLast?.getD 0x80

theorem initCOMPort_eq : initCOMPort u = { u with lcr := 0x83, dll := 0x80, dlm := 0, fcr := 0x27, thr := [] } := by
  have h₁ : (u.outb OFFSET_LCR 0x80).Dlab := by
    change (0x80 : Byte) &&& 0x80 ≠ 0
    decide
  have hd : (u.outb OFFSET_LCR 0x80).outb OFFSET_DLV_HIGH 0x80 = { u with lcr := 0x80, dll := 0x80 } := if_pos h₁
  have h₂ : ({ u with lcr := 0x80, dll := 0x80 } : Uart).Dlab := h₁
  have hm : ({ u with lcr := 0x80, dll := 0x80 } : Uart).outb OFFSET_DLV_LOW 0x00 =
      { u with lcr := 0x80, dll := 0x80, dlm := 0 } := if_pos h₂
  calc initCOMPort u
    _ = ((((u.outb OFFSET_LCR 0x80).outb OFFSET_DLV_HIGH 0x80).outb OFFSET_DLV_LOW 0x00).outb OFFSET_LCR 0x83).outb
          OFFSET_FIFO 0x27 := rfl
    _ = { u with lcr := 0x83, dll := 0x80, dlm := 0, fcr := 0x27, thr := [] } := by
      rw [hd, hm]
      rfl

theorem Silent.step (h : Silent u ls s) (hs : Step s e s') : Silent u (ls ++ [(s, e)]) s' := by
  have hl : s'.uart.lcr = 0x83 := hs.lcr.trans h.lcr
  have hd : s.uart.Dlab := by
    rw [Uart.Dlab, h.lcr]
    decide
  cases hs
  case outb v below b l _ =>
    have ho : v.outb 0 b = { v with dll := b } := if_pos hd
    refine ⟨hl, ?_, ?_, ?_⟩
    all_goals simp only [ho, written_snoc, Event.byte]
    · exact h.thr
    · exact h.line
    · simp
  case overrun hn _ _ => exact absurd hd hn
  case sent hb => exact nomatch h.thr.symm.trans hb
  all_goals
    refine ⟨hl, h.thr, h.line, ?_⟩
    rw [written_snoc]
    simpa [Event.byte] using h.dll

-- Behind `initCOMPort` nothing is sent, whatever is written.
theorem initCOMPort_silent (t : History Step ⟨initCOMPort u, [⟨[], false⟩]⟩ ls s') :
    s'.uart.line = u.line ∧ s'.uart.thr = [] ∧ s'.uart.dll = (written ls).getLast?.getD 0x80 := by
  have hs : Silent u ls s' := by
    generalize hv : (⟨initCOMPort u, [⟨[], false⟩]⟩ : Debug) = s at t
    induction t
    case nil =>
      rw [← hv, initCOMPort_eq]
      exact ⟨rfl, rfl, rfl, rfl⟩
    case snoc t hst hi => exact hi.step hst
  exact ⟨hs.line, hs.thr, hs.dll⟩

end Init

section Example

def idle : Uart where
  lcr  := 0x03
  dll  := 12
  dlm  := 0
  ier  := 0
  fcr  := 0
  fifo := 16
  thr  := []
  line := []

-- One byte is written to a port that is empty.
def oneByte : List (Debug × Event) :=
  [(⟨idle, [⟨[], false⟩]⟩, .writeString [0x61]), (⟨idle, [⟨[0x61], false⟩]⟩, .checkEmpty 0x20),
    (⟨idle, [⟨[0x61], true⟩]⟩, .outb 0x61)]

theorem oneByte_history :
    History Step ⟨idle, [⟨[], false⟩]⟩ oneByte ⟨{ idle with thr := [0x61] }, [⟨[], false⟩]⟩ := by
  have t₁ := (History.nil (⟨idle, [⟨[], false⟩]⟩ : Debug)).snoc (@Step.writeString _ _ [0x61])
  have hl : idle.Lsr 0x20 := iff_of_true (by decide) rfl
  have t₃ := (t₁.snoc (.checkEmpty hl)).snoc (.outb (.inr (by decide)))
  exact t₃

theorem bytes_arrive_iff_oneByte : ∃ s', History Step ⟨idle, [⟨[], false⟩]⟩ oneByte s' ∧ s'.uart.bytes = [0x61] :=
  ⟨_, oneByte_history, (bytes_arrive_iff (by decide) oneByte_history).right (by decide)⟩

-- Two bytes are written, and an interrupt that comes between them writes a third one.
theorem initCOMPort_silent_threeBytes : ∃ ls s', History Step ⟨initCOMPort idle, [⟨[], false⟩]⟩ ls s' ∧
    written ls = [0x61, 0x63, 0x62] ∧ s'.uart.line = [] ∧ s'.uart.thr = [] ∧ s'.uart.dll = 0x62 := by
  have empty (b : Byte) : { initCOMPort idle with dll := b }.Lsr 0x20 := iff_of_true (by decide) rfl
  have t₁ := (History.nil (⟨initCOMPort idle, [⟨[], false⟩]⟩ : Debug)).snoc (@Step.writeString _ _ [0x61, 0x62])
  have t₂ := (t₁.snoc (.checkEmpty (empty 0x80))).snoc (.outb (.inl (by decide)))
  have t₃ := (t₂.snoc .interrupt).snoc (@Step.writeString _ _ [0x63])
  have t₄ := ((t₃.snoc (.checkEmpty (empty 0x61))).snoc (.outb (.inl (by decide)))).snoc .iret
  have t₅ := (t₄.snoc (.checkEmpty (empty 0x63))).snoc (.outb (.inl (by decide)))
  exact ⟨_, _, t₅, rfl, initCOMPort_silent t₅⟩

end Example

end RoverOS.Com
