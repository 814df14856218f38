import Comlink.SegmentQueue
import Comlink.Ws.RxSm

/-! `lws_issue_raw`: bytes on their way to the socket. What the socket does not take is
kept in `buflist_out`, and goes out before anything else. -/

namespace Comlink

open CText SegmentQueue

/-- The most that one call sends. -/
def sendLimit : Nat := rxBufferSize + lwsPre + 4

/-- What the socket says to a number of bytes. -/
inductive Sent where
  | error
  | moreService
  | took (n : Nat)
  deriving DecidableEq, Repr

/-- The number of bytes that have gone out of `len`, unless the socket fails. -/
def Sent.count (len : Nat) : Sent → Option Nat
  | .error => none
  | .moreService => some 0
  | .took n => some (min n len)

/-- The bytes that the socket has taken, and `buflist_out`. -/
structure Output where
  sent : List Byte
  buflist : List (Segment Byte)

def Output.init : Output := ⟨[], []⟩

def Output.bytes (o : Output) : List Byte := o.sent ++ pending o.buflist

/-- The answer of a call, and whether the socket has failed in it. -/
structure Issued where
  ret : Int
  out : Output
  broken : Bool

def buflistSanity : Nat := 1024

/-- The caller does not look at the answer, so too many blocks lose the last one. -/
def lwsBuflistAppendSegment (q : List (Segment Byte)) (buf : List Byte) : List (Segment Byte) :=
  if buflistSanity ≤ q.length then q else push q buf

/-- An empty `buf` stands for the call with NULL. -/
def lwsIssueRaw (flushing : Bool) (o : Output) (buf : List Byte) (answer : Sent) : Issued :=
  if flushing = true ∧ o.buflist = [] then ⟨buf.length, o, false⟩
  else
    let buflist :=
      if o.buflist = [] then [] else if buf = [] then o.buflist
        else lwsBuflistAppendSegment o.buflist buf
    match buflist with
    | seg :: q =>
      match answer.count (min sendLimit seg.left.length) with
      | none => ⟨-1, ⟨o.sent, seg :: q⟩, true⟩
      | some m =>
        let out : Output := ⟨o.sent ++ seg.left.take m, consume (seg :: q) m⟩
        if out.buflist = [] then
          if flushing then ⟨-1, out, false⟩ else ⟨seg.left.length, out, false⟩
        else ⟨m, out, false⟩
    | [] =>
      if buf = [] then ⟨0, o, false⟩
      else
        match answer.count (min sendLimit buf.length) with
        | none => ⟨-1, o, true⟩
        | some m =>
          if m = buf.length then ⟨m, ⟨o.sent ++ buf, []⟩, false⟩
          else ⟨buf.length, ⟨o.sent ++ buf.take m, lwsBuflistAppendSegment [] (buf.drop m)⟩, false⟩

section Calls

variable {o : Output} {buf : List Byte} {answer : Sent}

/-- A call with nothing in `buflist_out`: all of it has gone out or been put there. -/
theorem issueRaw_fresh (hq : o.buflist = []) (hbuf : buf ≠ []) (answer : Sent) :
    lwsIssueRaw false o buf answer = ⟨-1, o, true⟩ ∨
      ∃ q : List (Segment Byte), q.length ≤ 1 ∧ ∃ sent,
        lwsIssueRaw false o buf answer = ⟨buf.length, ⟨sent, q⟩, false⟩ ∧
          sent ++ pending q = o.bytes ++ buf := by
  have hbytes : o.bytes = o.sent := by simp [Output.bytes, hq]
  simp only [lwsIssueRaw, hq, hbuf, Bool.false_eq_true, false_and, if_false, if_true, hbytes]
  cases answer.count (min sendLimit buf.length) with
  | none => exact Or.inl rfl
  | some m =>
    right
    by_cases hm : m = buf.length
    · exact ⟨[], Nat.zero_le _, o.sent ++ buf, by simp [hm], by simp⟩
    · refine ⟨push [] (buf.drop m), ?_, o.sent ++ buf.take m, ?_, ?_⟩
      · rw [push]
        split_ifs <;> simp
      · simp only [if_neg hm, lwsBuflistAppendSegment]
        rfl
      · simp

theorem issueRaw_drain (flushing : Bool) {seg : Segment Byte} {q : List (Segment Byte)}
    (hq : o.buflist = seg :: q) (answer : Sent) :
    lwsIssueRaw flushing o [] answer = ⟨-1, o, true⟩ ∨
      ∃ ret sent q', lwsIssueRaw flushing o [] answer = ⟨ret, ⟨sent, q'⟩, false⟩ ∧
        sent ++ pending q' = o.bytes ∧ q'.length ≤ o.buflist.length ∧
        (ret < 0 ↔ flushing = true ∧ q' = []) := by
  obtain ⟨sent, buflist⟩ := o
  subst hq
  simp only [lwsIssueRaw, reduceCtorEq, and_false, if_false, if_true]
  cases answer.count (min sendLimit seg.left.length) with
  | none => exact Or.inl rfl
  | some m =>
    right
    have hkeep : sent ++ seg.left.take m ++ pending (consume (seg :: q) m) =
        (⟨sent, seg :: q⟩ : Output).bytes := by
      rw [List.append_assoc, take_append_pending_consume]
      rfl
    have hlen := length_consume_le (seg :: q) m
    by_cases hdone : consume (seg :: q) m = []
    · cases flushing with
      | true =>
        exact ⟨-1, _, _, by simp only [if_pos hdone, if_true], hkeep, hlen, by simp [hdone]⟩
      | false =>
        refine ⟨seg.left.length, _, _, by simp only [if_pos hdone]; rfl, hkeep, hlen, ?_⟩
        simp only [Bool.false_eq_true, false_and, iff_false]
        omega
    · refine ⟨m, _, _, by simp only [if_neg hdone], hkeep, hlen, ?_⟩
      simp only [hdone, and_false, iff_false]
      omega

end Calls

end Comlink
