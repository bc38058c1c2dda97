import Aesd.Server.Truncation

/-! # Where the bytes of a packet end up

The mutex is taken for one chunk.  A ledger of a run notes for every byte in the
data source which thread has written it and where it stands among the bytes that
the thread has been sent.  What arrives in one chunk is stored in one piece; a
packet that comes in two chunks may have anything in between.
-/

namespace Aesd.Server

open Aesd.Lib Function

variable {Pid : Type}

/-- A stored byte, with the thread it came through and its place in what that
    thread has been sent. -/
structure Stamp (Pid : Type) where
  writer : Pid
  place : Nat
  byte : UInt8
  deriving Repr, DecidableEq

/-- Stamps for bytes that stand together, the first of them at `place`. -/
def stampFrom (p : Pid) : Nat → List UInt8 → List (Stamp Pid)
  | _, [] => []
  | place, b :: bytes => ⟨p, place, b⟩ :: stampFrom p (place + 1) bytes

/-- What comes in for a thread: a chunk from its client, or a timestamp that it formats. -/
def arrival : Request → Answer → Option (List UInt8)
  | .readSocket, .bytes data => some data
  | .strftime, .bytes date => some (timestampText date)
  | _, _ => none

/-- What has come in for each thread, and what the data source holds. -/
structure Ledger (Pid : Type) where
  arrivals : Pid → List (List UInt8)
  stored : List (Stamp Pid)

/-- All that a thread has been sent. -/
def Ledger.stream (L : Ledger Pid) (p : Pid) : List UInt8 := (L.arrivals p).flatten

/-- One more call.  A write stores the chunk that came in last. -/
def Ledger.enter [DecidableEq Pid] (dev : Bool) (L : Ledger Pid) :
    Pid × Request × Answer → Ledger Pid
  | (p, r, a) =>
    { arrivals := match arrival r a with
        | some bytes => update L.arrivals p (L.arrivals p ++ [bytes])
        | none => L.arrivals
      stored := match r, a with
        | .writeData bytes, .count n =>
          L.stored ++ stampFrom p ((L.stream p).length - bytes.length) (bytes.take n)
        | .openDataFile, .done => if dev then L.stored else []
        | _, _ => L.stored }

def ledger [DecidableEq Pid] (dev : Bool) (labels : List (Pid × Request × Answer)) : Ledger Pid :=
  labels.foldl (Ledger.enter dev) ⟨fun _ => [], []⟩

/-- The byte is one of those that thread `p` was sent from place `a` up to `b`. -/
abbrev Stamp.Within (x : Stamp Pid) (p : Pid) (a b : Nat) : Prop :=
  x.writer = p ∧ a ≤ x.place ∧ x.place < b

/-- The bytes that `p` was sent from `a` up to `b`, as far as they are stored,
    stand together, in order and from the first of them on. -/
structure Together [DecidableEq Pid] (p : Pid) (a b : Nat) (log : List (Stamp Pid)) : Prop where
  contiguous : (log.filter fun x => x.Within p a b) <:+: log
  inOrder : (log.filter fun x => x.Within p a b).map Stamp.place <+: List.range' a (b - a)

theorem stampFrom_append (p : Pid) (place : Nat) (bytes more : List UInt8) :
    stampFrom p place (bytes ++ more) =
      stampFrom p place bytes ++ stampFrom p (place + bytes.length) more := by
  induction bytes generalizing place with
  | nil => rfl
  | cons b bytes ih =>
      rw [List.cons_append, stampFrom, ih, stampFrom, List.length_cons, List.cons_append,
        Nat.add_right_comm, Nat.add_assoc]

theorem map_byte_stampFrom (p : Pid) (place : Nat) (bytes : List UInt8) :
    (stampFrom p place bytes).map Stamp.byte = bytes := by
  induction bytes generalizing place with
  | nil => rfl
  | cons b bytes ih => rw [stampFrom, List.map_cons, ih]

theorem map_place_stampFrom (p : Pid) (place : Nat) (bytes : List UInt8) :
    (stampFrom p place bytes).map Stamp.place = List.range' place bytes.length := by
  induction bytes generalizing place with
  | nil => rfl
  | cons b bytes ih => rw [stampFrom, List.map_cons, ih, List.length_cons, List.range'_succ]

theorem mem_stampFrom {p : Pid} {place : Nat} {bytes : List UInt8} {x : Stamp Pid}
    (member : x ∈ stampFrom p place bytes) :
    x.writer = p ∧ place ≤ x.place ∧ x.place < place + bytes.length ∧
      bytes[x.place - place]? = some x.byte := by
  induction bytes generalizing place with
  | nil => cases member
  | cons b bytes ih =>
      rcases List.mem_cons.mp member with rfl | later
      · simp
      · obtain ⟨writer, lower, upper, byte⟩ := ih later
        have next : x.place - place = (x.place - (place + 1)) + 1 := by omega
        refine ⟨writer, by omega, by rw [List.length_cons]; omega, ?_⟩
        rw [next, List.getElem?_cons_succ, byte]

theorem range'_prefix_range' (a : Nat) {n m : Nat} (le : n ≤ m) : List.range' a n <+: List.range' a m := by
  obtain ⟨k, rfl⟩ := Nat.exists_eq_add_of_le le
  exact ⟨List.range' (a + n) k, by rw [List.range'_append_1]⟩

section

variable [DecidableEq Pid] {p : Pid} {a b : Nat} {log : List (Stamp Pid)}

theorem filter_within_eq_nil (outside : ∀ x ∈ log, ¬x.Within p a b) :
    (log.filter fun x => x.Within p a b) = [] :=
  List.filter_eq_nil_iff.mpr fun x member => by simpa using outside x member

theorem Together.none (outside : ∀ x ∈ log, ¬x.Within p a b) : Together p a b log := by
  constructor
  · rw [filter_within_eq_nil outside]
    exact List.nil_infix
  · rw [filter_within_eq_nil outside]
    exact List.nil_prefix

theorem Together.append (together : Together p a b log) {more : List (Stamp Pid)}
    (outside : ∀ x ∈ more, ¬x.Within p a b) : Together p a b (log ++ more) := by
  have same : ((log ++ more).filter fun x => x.Within p a b) =
      log.filter fun x => x.Within p a b := by
    rw [List.filter_append, filter_within_eq_nil outside, List.append_nil]
  constructor
  · rw [same]
    exact together.contiguous.trans (List.prefix_append log more).isInfix
  · rw [same]
    exact together.inOrder

theorem Together.chunk (outside : ∀ x ∈ log, ¬x.Within p a b) {start : Nat} (before : start ≤ a)
    (bytes : List UInt8) : Together p a b (log ++ stampFrom p start bytes) := by
  -- what stands in front of the bytes in the chunk, the bytes themselves, and the rest
  have front := List.take_append_drop (a - start) bytes
  have inner := List.take_append_drop (b - a) (bytes.drop (a - start))
  have lengths : (bytes.take (a - start)).length = min (a - start) bytes.length := List.length_take
  have short : ((bytes.drop (a - start)).take (b - a)).length =
      min (b - a) (bytes.length - (a - start)) := by rw [List.length_take, List.length_drop]
  have left : ((bytes.drop (a - start)).drop (b - a)).length =
      bytes.length - (a - start) - (b - a) := by rw [List.length_drop, List.length_drop]
  have stamps : stampFrom p start bytes = stampFrom p start (bytes.take (a - start)) ++
      (stampFrom p (start + (bytes.take (a - start)).length) ((bytes.drop (a - start)).take (b - a)) ++
        stampFrom p (start + (bytes.take (a - start)).length +
          ((bytes.drop (a - start)).take (b - a)).length) ((bytes.drop (a - start)).drop (b - a))) := by
    rw [← stampFrom_append, inner, ← stampFrom_append, front]
  generalize bytes.take (a - start) = early at *
  generalize (bytes.drop (a - start)).take (b - a) = own at *
  generalize (bytes.drop (a - start)).drop (b - a) = late at *
  have first : (stampFrom p start early).filter (fun x => x.Within p a b) = [] := by
    refine filter_within_eq_nil fun x member within => ?_
    obtain ⟨_, _, upper, _⟩ := mem_stampFrom member
    omega
  have last : (stampFrom p (start + early.length + own.length) late).filter
      (fun x => x.Within p a b) = [] := by
    refine filter_within_eq_nil fun x member within => ?_
    obtain ⟨_, lower, upper, _⟩ := mem_stampFrom member
    omega
  have middle : (stampFrom p (start + early.length) own).filter (fun x => x.Within p a b) =
      stampFrom p (start + early.length) own := by
    refine List.filter_eq_self.mpr fun x member => decide_eq_true ?_
    obtain ⟨writer, lower, upper, _⟩ := mem_stampFrom member
    exact ⟨writer, by omega, by omega⟩
  have all : ((log ++ stampFrom p start bytes).filter fun x => x.Within p a b) =
      stampFrom p (start + early.length) own := by
    rw [stamps, List.filter_append, List.filter_append, List.filter_append,
      filter_within_eq_nil outside, first, middle, last, List.nil_append, List.nil_append,
      List.append_nil]
  constructor
  · rw [all, stamps]
    refine ⟨log ++ stampFrom p start early,
      stampFrom p (start + early.length + own.length) late, ?_⟩
    simp only [List.append_assoc]
  · rw [all, map_place_stampFrom]
    by_cases empty : own.length = 0
    · rw [empty]
      exact List.nil_prefix
    · rw [show start + early.length = a by omega]
      exact range'_prefix_range' a (by omega)

end

/-- The bytes that a thread will hand to `write` next. -/
def pending : ThreadPc → Option (List UInt8)
  | .append (.lock buf readcount) | .append (.write buf readcount) => some (buf.bytes.take readcount)
  | .timestamp (.write tstr) => some tstr
  | _ => none

theorem pending_of_write {pc : ThreadPc} {bytes : List UInt8}
    (asks : server.request pc = some (.writeData bytes)) : pending pc = some bytes := by
  rcases pc with pc | pc
  · cases pc <;> cases asks
    rfl
  · cases pc <;> cases asks
    rfl

@[simp] theorem pending_replyOrNext (buf : Buf) (readcount : Nat) :
    pending (.append (.replyOrNext buf readcount)) = none := by
  rw [AppendPc.replyOrNext]
  split <;> rfl

@[simp] theorem pending_advance (buf : Buf) (pos rc : Nat) :
    pending (.append (.advance buf pos rc)) = none := by
  rw [AppendPc.advance]
  split <;> rfl

theorem append_pending {pc pc' : AppendPc} {r : Request} {a : Answer} {bytes : List UInt8}
    (step : AppendStep pc r a pc') (next : pending (.append pc') = some bytes) :
    arrival r a = some bytes ∨ (pending (.append pc) = some bytes ∧ arrival r a = none ∧
      ∀ more, r ≠ .writeData more) := by
  cases step with
  | data buf nonempty short plain =>
      rw [pending, buf.take_fill short] at next
      exact .inl next
  | locked buf readcount => exact .inr ⟨next, rfl, fun _ => Request.noConfusion⟩
  | ioctl | unlocked | sent => simp at next
  | _ => cases next

theorem timestamp_pending {pc pc' : TimestampPc} {r : Request} {a : Answer} {bytes : List UInt8}
    (step : TimestampStep pc r a pc') (next : pending (.timestamp pc') = some bytes) :
    arrival r a = some bytes := by
  cases step with
  | formatted => exact next
  | _ => cases next

theorem pending_step {pc pc' : ThreadPc} {r : Request} {a : Answer} {bytes : List UInt8}
    (asks : server.request pc = some r) (resumes : server.resume pc a = some pc')
    (next : pending pc' = some bytes) :
    arrival r a = some bytes ∨ (pending pc = some bytes ∧ arrival r a = none ∧
      ∀ more, r ≠ .writeData more) := by
  cases pc with
  | append pc =>
      obtain ⟨_, goes, rfl⟩ := Option.map_eq_some_iff.mp resumes
      exact append_pending (appendStep_of asks goes) next
  | timestamp pc =>
      obtain ⟨_, goes, rfl⟩ := Option.map_eq_some_iff.mp resumes
      exact .inl (timestamp_pending (timestampStep_of asks goes) next)

/-- The stretch from `a` up to `b` has come in as part of one chunk. -/
def InOneChunk (arrivals : List (List UInt8)) (a b : Nat) : Prop :=
  ∃ earlier bytes later, arrivals = earlier ++ bytes :: later ∧ earlier.flatten.length ≤ a ∧
    b ≤ earlier.flatten.length + bytes.length

theorem InOneChunk.concat {arrivals : List (List UInt8)} {bytes : List UInt8} {a b : Nat}
    (one : InOneChunk (arrivals ++ [bytes]) a b) :
    arrivals.flatten.length ≤ a ∨ (InOneChunk arrivals a b ∧ b ≤ arrivals.flatten.length) := by
  obtain ⟨earlier, piece, later, split, lower, upper⟩ := one
  rcases List.eq_nil_or_concat later with rfl | ⟨later, last, rfl⟩
  · obtain ⟨rfl, _⟩ := List.append_inj' split rfl
    exact .inl lower
  · rw [List.concat_eq_append, ← List.cons_append, ← List.append_assoc] at split
    obtain ⟨rfl, _⟩ := List.append_inj' split rfl
    refine .inr ⟨⟨earlier, piece, later, rfl, lower, upper⟩, ?_⟩
    simp only [List.flatten_append, List.flatten_cons, List.length_append]
    omega

/-- The ledger of a run and the state that the run leads to. -/
structure Recorded [DecidableEq Pid] (L : Ledger Pid) (w : World Pid ThreadPc (Source Pid)) :
    Prop where
  content : w.shared.content = L.stored.map Stamp.byte
  lastChunk : ∀ p bytes, pending (w.pc p) = some bytes → ∃ earlier, L.arrivals p = earlier ++ [bytes]
  genuine : ∀ x ∈ L.stored, (L.stream x.writer)[x.place]? = some x.byte
  settled : ∀ x ∈ L.stored, ∀ bytes, pending (w.pc x.writer) = some bytes →
    x.place + bytes.length < (L.stream x.writer).length
  together : ∀ p a b, InOneChunk (L.arrivals p) a b → Together p a b L.stored

section

variable [DecidableEq Pid] {dev : Bool} {L : Ledger Pid} {w w' : World Pid ThreadPc (Source Pid)}
  {p : Pid} {r : Request} {a : Answer}

theorem enter_arrivals_self {bytes : List UInt8} (came : arrival r a = some bytes) :
    (L.enter dev (p, r, a)).arrivals p = L.arrivals p ++ [bytes] := by
  simp only [Ledger.enter, came, update_self]

theorem enter_arrivals_none (none : arrival r a = none) :
    (L.enter dev (p, r, a)).arrivals = L.arrivals := by
  simp only [Ledger.enter, none]

theorem enter_arrivals_other {q : Pid} (apart : q ≠ p) :
    (L.enter dev (p, r, a)).arrivals q = L.arrivals q := by
  simp only [Ledger.enter]
  cases arrival r a with
  | none => rfl
  | some bytes => exact update_of_ne apart _ _

theorem enter_stored (L : Ledger Pid) (dev : Bool) (p : Pid) (r : Request) (a : Answer) :
    (∃ bytes n, r = .writeData bytes ∧ a = .count n ∧ (L.enter dev (p, r, a)).stored =
      L.stored ++ stampFrom p ((L.stream p).length - bytes.length) (bytes.take n)) ∨
    (r = .openDataFile ∧ a = .done ∧ (L.enter dev (p, r, a)).stored = []) ∨
      (L.enter dev (p, r, a)).stored = L.stored := by
  simp only [Ledger.enter]
  split
  · exact .inl ⟨_, _, rfl, rfl, rfl⟩
  · cases dev
    · exact .inr (.inl ⟨rfl, rfl, rfl⟩)
    · exact .inr (.inr rfl)
  · exact .inr (.inr rfl)

theorem mem_enter_stored {x : Stamp Pid} (member : x ∈ (L.enter dev (p, r, a)).stored) :
    x ∈ L.stored ∨ x.writer = p ∧ ∃ bytes, r = .writeData bytes := by
  rcases enter_stored L dev p r a with ⟨bytes, n, rfl, rfl, stored⟩ | ⟨_, _, emptied⟩ | stays
  · rw [stored] at member
    rcases List.mem_append.mp member with before | new
    · exact .inl before
    · exact .inr ⟨(mem_stampFrom new).1, bytes, rfl⟩
  · rw [emptied] at member
    cases member
  · rw [stays] at member
    exact .inl member

theorem stream_enter (L : Ledger Pid) (dev : Bool) (label : Pid × Request × Answer) (q : Pid) :
    L.stream q <+: (L.enter dev label).stream q := by
  obtain ⟨p, r, a⟩ := label
  by_cases same : q = p
  · subst same
    cases came : arrival r a with
    | none =>
        rw [Ledger.stream, Ledger.stream, enter_arrivals_none came]
    | some bytes =>
        rw [Ledger.stream, Ledger.stream, enter_arrivals_self came, List.flatten_append]
        exact List.prefix_append _ _
  · rw [Ledger.stream, Ledger.stream, enter_arrivals_other same]

theorem act_stored {s s' : Source Pid} (acts : (dataSource Pid dev).act s p r a = some s')
    (content : s.content = L.stored.map Stamp.byte) :
    s'.content = (L.enter dev (p, r, a)).stored.map Stamp.byte := by
  unfold dataSource at acts
  dsimp only at acts
  split at acts
  · cases dev <;> cases acts
    · rfl
    · exact content
  · split at acts <;> cases acts
    exact content
  · cases acts
    exact content
  · split at acts <;> cases acts
    simp only [Ledger.enter, List.map_append, map_byte_stampFrom, content]
  · split at acts <;> cases acts
    exact content
  · rename_i opens _ _ writes _
    cases acts
    rcases enter_stored L dev p r a with ⟨bytes, n, rfl, rfl, _⟩ | ⟨rfl, rfl, _⟩ | same
    · exact absurd rfl (writes bytes n rfl)
    · exact absurd rfl (opens rfl)
    · rw [same, content]

theorem Recorded.place_lt (recorded : Recorded L w) {x : Stamp Pid} (member : x ∈ L.stored) :
    x.place < (L.stream x.writer).length :=
  (List.getElem?_eq_some_iff.mp (recorded.genuine x member)).1

theorem Recorded.writing (recorded : Recorded L w) {bytes : List UInt8}
    (asks : server.request (w.pc p) = some (.writeData bytes)) :
    ∃ earlier, L.arrivals p = earlier ++ [bytes] ∧
      (L.stream p).length - bytes.length = earlier.flatten.length ∧
        ∀ x ∈ L.stored, x.writer = p → x.place < earlier.flatten.length := by
  have waiting := pending_of_write asks
  obtain ⟨earlier, arrivals⟩ := recorded.lastChunk p bytes waiting
  have length : (L.stream p).length = earlier.flatten.length + bytes.length := by
    rw [Ledger.stream, arrivals, List.flatten_append, List.length_append, List.flatten_singleton]
  refine ⟨earlier, arrivals, by omega, ?_⟩
  rintro x member rfl
  have before := recorded.settled x member bytes waiting
  omega

theorem Recorded.genuine_enter (recorded : Recorded L w)
    (asks : server.request (w.pc p) = some r) :
    ∀ x ∈ (L.enter dev (p, r, a)).stored,
      ((L.enter dev (p, r, a)).stream x.writer)[x.place]? = some x.byte := by
  have old : ∀ x ∈ L.stored, ((L.enter dev (p, r, a)).stream x.writer)[x.place]? = some x.byte := by
    intro x member
    obtain ⟨more, grown⟩ := stream_enter L dev (p, r, a) x.writer
    rw [← grown, List.getElem?_append_left (recorded.place_lt member)]
    exact recorded.genuine x member
  intro x member
  rcases enter_stored L dev p r a with ⟨bytes, n, rfl, rfl, stored⟩ | ⟨_, _, emptied⟩ | same
  · rw [stored] at member
    rcases List.mem_append.mp member with before | new
    · exact old x before
    · obtain ⟨earlier, arrivals, start, _⟩ := recorded.writing asks
      obtain ⟨rfl, lower, _, byte⟩ := mem_stampFrom new
      have stream : (L.enter dev (x.writer, .writeData bytes, .count n)).stream x.writer =
          earlier.flatten ++ bytes := by
        rw [Ledger.stream, enter_arrivals_none rfl, arrivals, List.flatten_append,
          List.flatten_singleton]
      rw [start] at lower byte
      rw [stream, List.getElem?_append_right lower]
      obtain ⟨h, here⟩ := List.getElem?_eq_some_iff.mp byte
      rw [List.getElem_take] at here
      exact List.getElem?_eq_some_iff.mpr ⟨by rw [List.length_take] at h; omega, here⟩
  · rw [emptied] at member
    cases member
  · rw [same] at member
    exact old x member

theorem Recorded.settled_enter (recorded : Recorded L w) {pc : ThreadPc}
    (asks : server.request (w.pc p) = some r) (resumes : server.resume (w.pc p) a = some pc) :
    ∀ x ∈ (L.enter dev (p, r, a)).stored, ∀ bytes,
      pending (update w.pc p pc x.writer) = some bytes →
        x.place + bytes.length < ((L.enter dev (p, r, a)).stream x.writer).length := by
  intro x member bytes next
  by_cases same : x.writer = p
  · rw [same, update_self] at next
    -- a thread that writes has nothing pending afterwards
    have unwritten : x ∈ L.stored := by
      refine (mem_enter_stored member).resolve_right ?_
      rintro ⟨_, written, rfl⟩
      rcases pending_step asks resumes next with came | ⟨_, _, other⟩
      · cases came
      · exact other written rfl
    rcases pending_step asks resumes next with came | ⟨before, none, _⟩
    · have place := recorded.place_lt unwritten
      rw [same] at place ⊢
      rw [Ledger.stream, enter_arrivals_self came, List.flatten_append, List.length_append,
        List.flatten_singleton]
      exact Nat.add_lt_add_right place _
    · have place := recorded.settled x unwritten bytes (by rw [same, before])
      rwa [Ledger.stream, enter_arrivals_none none]
  · rw [update_of_ne same] at next
    have unwritten : x ∈ L.stored :=
      (mem_enter_stored member).resolve_right fun written => same written.1
    rw [Ledger.stream, enter_arrivals_other same]
    exact recorded.settled x unwritten bytes next

theorem Recorded.together_enter (recorded : Recorded L w)
    (asks : server.request (w.pc p) = some r) {q : Pid} {i j : Nat}
    (one : InOneChunk ((L.enter dev (p, r, a)).arrivals q) i j) :
    Together q i j (L.enter dev (p, r, a)).stored := by
  rcases enter_stored L dev p r a with ⟨bytes, n, rfl, rfl, stored⟩ | ⟨_, _, emptied⟩ | same
  · rw [enter_arrivals_none rfl] at one
    rw [stored]
    obtain ⟨earlier, arrivals, start, settled⟩ := recorded.writing asks
    rw [start]
    by_cases mine : q = p
    · subst mine
      have chunk := one
      rw [arrivals] at chunk
      rcases chunk.concat with behind | ⟨_, before⟩
      · refine Together.chunk (fun x member within => ?_) behind _
        have place := settled x member within.1
        omega
      · refine (recorded.together q i j one).append fun x new within => ?_
        have place := (mem_stampFrom new).2.1
        omega
    · refine (recorded.together q i j one).append fun x new within => ?_
      exact mine (within.1.symm.trans (mem_stampFrom new).1)
  · rw [emptied]
    exact Together.none (List.forall_mem_nil _)
  · rw [same]
    by_cases mine : q = p
    · subst mine
      cases came : arrival r a with
      | none =>
          rw [enter_arrivals_none came] at one
          exact recorded.together q i j one
      | some bytes =>
          rw [enter_arrivals_self came] at one
          rcases one.concat with behind | ⟨older, _⟩
          · refine Together.none fun x member within => ?_
            have place := recorded.place_lt member
            rw [within.1, Ledger.stream] at place
            omega
          · exact recorded.together q i j older
    · rw [enter_arrivals_other mine] at one
      exact recorded.together q i j one

theorem Recorded.step (recorded : Recorded L w) {label : Pid × Request × Answer}
    (taken : (threads Pid dev).step w label w') : Recorded (L.enter dev label) w' := by
  obtain ⟨p, r, a⟩ := label
  obtain ⟨shared, pc, asks, acts, resumes, rfl⟩ := Machine.next_cases taken
  dsimp only at asks acts resumes
  refine ⟨act_stored acts recorded.content, ?_, recorded.genuine_enter asks,
    recorded.settled_enter asks resumes, fun q i j one => recorded.together_enter asks one⟩
  intro q bytes next
  by_cases same : q = p
  · subst same
    simp only [update_self] at next
    rcases pending_step asks resumes next with came | ⟨before, none, _⟩
    · exact ⟨L.arrivals q, enter_arrivals_self came⟩
    · rw [enter_arrivals_none none]
      exact recorded.lastChunk q bytes before
  · simp only [update_of_ne same] at next
    rw [enter_arrivals_other same]
    exact recorded.lastChunk q bytes next

theorem pending_of_entered {pc : ThreadPc} (entered : pc.entered) : pending pc = none := by
  rcases pc with pc | pc
  · obtain ⟨buf, rfl⟩ := entered
    rfl
  · obtain rfl : pc = .sleep := entered
    rfl

theorem recorded_of_run {labels : List (Pid × Request × Answer)}
    (run : (threads Pid dev).Run Lts.anyStep labels w) : Recorded (ledger dev labels) w := by
  refine run.induct (fun labels w => Recorded (ledger dev labels) w) ?_ ?_
  · rintro w ⟨⟨_, empty⟩, enters⟩
    refine ⟨empty, fun p bytes next => ?_, List.forall_mem_nil _, List.forall_mem_nil _,
      fun _ _ _ _ => Together.none (List.forall_mem_nil _)⟩
    rw [pending_of_entered (enters p)] at next
    cases next
  · intro labels w label w' recorded _ taken
    rw [ledger, List.foldl_append]
    exact recorded.step taken

/-- The data source holds the bytes of the ledger, each of them where its thread
    was sent it, and what came in one chunk is stored together. -/
theorem chunk_together {labels : List (Pid × Request × Answer)}
    (run : (threads Pid dev).Run Lts.anyStep labels w) :
    w.shared.content = (ledger dev labels).stored.map Stamp.byte ∧
      (∀ x ∈ (ledger dev labels).stored,
        ((ledger dev labels).stream x.writer)[x.place]? = some x.byte) ∧
      ∀ p i j, InOneChunk ((ledger dev labels).arrivals p) i j →
        Together p i j (ledger dev labels).stored := by
  have recorded := recorded_of_run run
  exact ⟨recorded.content, recorded.genuine, recorded.together⟩

end

/-- Of the line of thread 1 only a byte is stored, between the timestamp and the line
    of thread 0. -/
def shortBetween : List (Nat × Request × Answer) :=
  [(0, .openDataFile, .done), (1, .openDataFile, .done), (2, .sleep, .done), (2, .lock, .done),
    (0, .readSocket, .bytes [97, 98, newline]), (2, .strftime, .bytes []),
    (2, .writeData (timestampText []), .count 11), (1, .readSocket, .bytes [99, newline]),
    (2, .unlock, .done), (1, .lock, .done), (1, .writeData [99, newline], .count 1),
    (1, .unlock, .done), (0, .lock, .done), (0, .writeData [97, 98, newline], .count 3)]

theorem chunk_together_three : ∃ w : World Nat ThreadPc (Source Nat),
    let L := ledger false shortBetween
    L.stored.map Stamp.writer = List.replicate 11 2 ++ [1] ++ [0, 0, 0] ∧
      w.shared.content = L.stored.map Stamp.byte ∧
      (∀ x ∈ L.stored, (L.stream x.writer)[x.place]? = some x.byte) ∧
      ∀ p i j, InOneChunk (L.arrivals p) i j → Together p i j L.stored := by
  obtain ⟨w, run, writers⟩ := server_run Lts.anyStep
    (fun _ => (ledger false shortBetween).stored.map Stamp.writer =
      List.replicate 11 2 ++ [1] ++ [0, 0, 0]) shortBetween (by decide +kernel)
  exact ⟨w, writers, chunk_together run⟩

/-- From `i` up to `j` stands a packet: it ends with its first newline. -/
structure IsPacket (stream : List UInt8) (i j : Nat) : Prop where
  starts : i = 0 ∨ stream[i - 1]? = some newline
  ends : i < j ∧ stream[j - 1]? = some newline
  inside : ∀ k, i ≤ k → k + 1 < j → stream[k]? ≠ some newline

/-- Thread 0 is sent a packet in two chunks; thread 1 stores its packet between them. -/
def interleavedPackets : List (Nat × Answer) :=
  [(0, .done), (1, .done), (0, .bytes [97]), (0, .done), (0, .count 1), (0, .done),
    (1, .bytes [98, newline]), (1, .done), (1, .count 2), (1, .done),
    (0, .bytes [97, 98, newline]), (0, .count 3), (0, .bytes []),
    (0, .bytes [newline]), (0, .done), (0, .count 1), (0, .done)]

/-- A packet that comes in two chunks gets another one in between. -/
theorem packet_is_split :
    ¬∀ (labels : List (Nat × Request × Answer)) (w : World Nat ThreadPc (Source Nat)),
      (threads Nat false).Run Lts.anyStep labels w →
        ∀ p i j, IsPacket ((ledger false labels).stream p) i j →
          Together p i j (ledger false labels).stored := by
  intro claim
  have runs : ((server.exec (dataSource Nat false) serverStart interleavedPackets).map
      fun (labels, w) => ((ledger false labels).stored, (ledger false labels).stream 0)) =
      some ([⟨0, 0, 97⟩, ⟨1, 0, 98⟩, ⟨1, 1, newline⟩, ⟨0, 1, newline⟩], [97, newline]) := by
    decide +kernel
  obtain ⟨⟨labels, w⟩, executes, result⟩ := Option.map_eq_some_iff.mp runs
  simp only [Prod.mk.injEq] at result
  obtain ⟨stored, stream⟩ := result
  have packet : IsPacket ((ledger false labels).stream 0) 0 2 := by
    rw [stream]
    refine ⟨.inl rfl, ⟨by decide, rfl⟩, fun k _ less => ?_⟩
    obtain rfl : k = 0 := by omega
    decide
  have together := claim labels w (Machine.run_of_exec serverStart_run executes
    fun _ _ _ => trivial) 0 0 2 packet
  rw [stored] at together
  exact absurd together.contiguous (by decide)

end Aesd.Server
