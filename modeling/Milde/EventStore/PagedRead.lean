/-
  Milde.EventStore.PagedRead

  `GetEvents` (EventStore/EventStore/EventStore.cs) on a stream that grows while it is read.

  Between two page reads other processes may append.  The loop keeps the events so far and
  the last slice (`PagedRead`); the next page starts where the last slice says.  A page that
  is not the last one is full and inside the stream, so the cursor moves towards an end that
  is fixed once all appends are counted (`cursor_readPage_lt`), and what has been read is what
  the stream holds from `fromVersion` up to the cursor (`readPages_eq`).
-/
import Milde.EventStore.Store

namespace Milde.EventStore

variable {α : Type}

/-- The two variables of the loop: `events` and the nullable `eventDatas`. -/
structure PagedRead (α : Type) where
  events : List α
  eventDatas : Option (StreamEventsSlice α)

namespace PagedRead

/-- Before the first page. -/
def start : PagedRead α := ⟨[], none⟩

/-- `eventDatas?.NextEventNumber ?? fromVersion`. -/
def cursor (fromVersion : Nat) (r : PagedRead α) : Nat :=
  (r.eventDatas.map StreamEventsSlice.nextEventNumber).getD fromVersion

/-- The body of the loop, on the stream as the page read finds it. -/
def readPage (fromVersion count : Nat) (stream : List α) (r : PagedRead α) : PagedRead α :=
  let eventDatas := readStreamEventsForward stream (r.cursor fromVersion) count
  ⟨r.events ++ eventDatas.events, some eventDatas⟩

/-- `eventDatas.IsEndOfStream` after a page read. -/
def isEndOfStream (r : PagedRead α) : Bool :=
  (r.eventDatas.map StreamEventsSlice.isEndOfStream).getD true

variable {fromVersion count : Nat} {stream : List α} {r : PagedRead α}

/-- The last page reads to the end of the stream. -/
theorem events_readPage_of_end
    (h : (r.readPage fromVersion count stream).isEndOfStream = true) :
    (r.readPage fromVersion count stream).events =
      r.events ++ stream.drop (r.cursor fromVersion) := by
  have hend : stream.length ≤ r.cursor fromVersion + count := of_decide_eq_true h
  show r.events ++ (stream.drop _).take count = _
  rw [List.take_of_length_le]
  rw [List.length_drop]
  omega

/-- Any other page is full. -/
theorem cursor_readPage_of_not_end
    (h : ¬ (r.readPage fromVersion count stream).isEndOfStream = true) :
    r.cursor fromVersion + count < stream.length ∧
      (r.readPage fromVersion count stream).cursor fromVersion = r.cursor fromVersion + count :=
  readStreamEventsForward_of_not_end h

end PagedRead

/-- The appends that come before the next page read take effect. -/
def grow (stream : List α) (appends : List (List α)) : List α := stream ++ appends.headD []

theorem length_grow (stream : List α) (appends : List (List α)) :
    (grow stream appends).length + appends.tail.flatten.length =
      stream.length + appends.flatten.length := by
  cases appends with
  | nil => simp [grow]
  | cons new appends =>
      simp only [grow, List.headD_cons, List.tail_cons, List.flatten_cons, List.length_append]
      omega

/-- What is left to read, with all the appends to come, shrinks from page to page. -/
theorem cursor_readPage_lt {fromVersion : Nat} {count : { n : Nat // 0 < n }} {stream : List α}
    {appends : List (List α)} {r : PagedRead α}
    (h : ¬ (r.readPage fromVersion count stream).isEndOfStream = true) :
    (grow stream appends).length + appends.tail.flatten.length -
        (r.readPage fromVersion count stream).cursor fromVersion <
      stream.length + appends.flatten.length - r.cursor fromVersion := by
  obtain ⟨hlt, hcursor⟩ := PagedRead.cursor_readPage_of_not_end h
  have hcount := count.property
  rw [length_grow, hcursor]
  omega

/-- The `do … while` loop: the variables at its end, and the stream at the last page read.
    `appends` is what is appended between one page read and the next. -/
def readPages (fromVersion : Nat) (count : { n : Nat // 0 < n }) (stream : List α)
    (appends : List (List α)) (r : PagedRead α) : PagedRead α × List α :=
  if _h : (r.readPage fromVersion count stream).isEndOfStream = true then
    (r.readPage fromVersion count stream, stream)
  else
    readPages fromVersion count (grow stream appends) appends.tail
      (r.readPage fromVersion count stream)
termination_by stream.length + appends.flatten.length - r.cursor fromVersion
decreasing_by exact cursor_readPage_lt _h

/-- `GetEvents` while others append: the events it returns, and the stream at its last page
    read. -/
def getEventsGrowing (stream : List α) (appends : List (List α)) (fromVersion : Nat)
    (count : { n : Nat // 0 < n }) : List α × List α :=
  let (r, last) := readPages fromVersion count stream appends PagedRead.start
  (r.events, last)

/-- The stream after some of the appends. -/
theorem grow_append_take (stream : List α) (appends : List (List α)) (n : Nat) :
    grow stream appends ++ (appends.tail.take n).flatten =
      stream ++ (appends.take (n + 1)).flatten := by
  cases appends with
  | nil => simp [grow]
  | cons new appends =>
      rw [grow, List.headD_cons, List.tail_cons, List.take_succ_cons, List.flatten_cons,
        List.append_assoc]

/-- **The loop** ends, after some of the appends, with all events from its cursor on. -/
theorem readPages_eq (fromVersion : Nat) (count : { n : Nat // 0 < n }) (stream : List α)
    (appends : List (List α)) (r : PagedRead α) :
    ∃ n, (readPages fromVersion count stream appends r).2 =
        stream ++ (appends.take n).flatten ∧
      (readPages fromVersion count stream appends r).1.events =
        r.events ++ (stream ++ (appends.take n).flatten).drop (r.cursor fromVersion) := by
  fun_induction readPages fromVersion count stream appends r with
  | case1 stream appends r hend =>
      refine ⟨0, (List.append_nil _).symm, ?_⟩
      rw [PagedRead.events_readPage_of_end hend, List.take_zero, List.flatten_nil,
        List.append_nil]
  | case2 stream appends r hmore ih =>
      obtain ⟨n, hlast, hevents⟩ := ih
      obtain ⟨hlt, hcursor⟩ := PagedRead.cursor_readPage_of_not_end hmore
      rw [grow_append_take] at hlast hevents
      refine ⟨n + 1, hlast, ?_⟩
      rw [hevents, hcursor]
      -- the page is the same in the stream as it was and in the stream as it ends
      have hpage : (stream.drop (r.cursor fromVersion)).take count =
          ((stream ++ (appends.take (n + 1)).flatten).drop (r.cursor fromVersion)).take
            count := by
        rw [List.drop_append_of_le_length (by omega), List.take_append_of_le_length]
        rw [List.length_drop]
        omega
      show (r.events ++ (stream.drop (r.cursor fromVersion)).take count) ++ _ = _
      rw [hpage, ← List.drop_drop, List.append_assoc, List.take_append_drop]

/-- **Paged reading is complete and contiguous.** The loop ends, and what it returns are the
    events from `fromVersion` on of the stream at the last page read, which is the stream as
    it was with some of the appends; so all that was there is among them. -/
theorem paged_read (stream : List α) (appends : List (List α)) (fromVersion : Nat)
    (count : { n : Nat // 0 < n }) :
    ∃ n, (getEventsGrowing stream appends fromVersion count).2 =
        stream ++ (appends.take n).flatten ∧
      (getEventsGrowing stream appends fromVersion count).1 =
        (getEventsGrowing stream appends fromVersion count).2.drop fromVersion ∧
      stream.drop fromVersion <+: (getEventsGrowing stream appends fromVersion count).1 := by
  obtain ⟨n, hlast, hevents⟩ :=
    readPages_eq fromVersion count stream appends (PagedRead.start : PagedRead α)
  have hlast : (getEventsGrowing stream appends fromVersion count).2 =
      stream ++ (appends.take n).flatten := hlast
  have hevents : (getEventsGrowing stream appends fromVersion count).1 =
      (stream ++ (appends.take n).flatten).drop fromVersion := hevents
  refine ⟨n, hlast, hevents.trans (by rw [hlast]), ?_⟩
  rw [hevents, List.drop_append]
  exact List.prefix_append _ _

/-- Where nobody appends, the loop is `getEvents`. -/
theorem getEventsGrowing_nil (stream : List α) (fromVersion : Nat) :
    (getEventsGrowing stream [] fromVersion ⟨maxReadSize, by decide⟩).1 =
      getEvents stream fromVersion := by
  obtain ⟨n, -, hevents⟩ := readPages_eq fromVersion ⟨maxReadSize, by decide⟩ stream []
    (PagedRead.start : PagedRead α)
  rw [List.take_nil, List.flatten_nil, List.append_nil] at hevents
  rw [getEvents_eq_drop]
  exact hevents

end Milde.EventStore
