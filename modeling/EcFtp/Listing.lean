/-
A listing on its way from `do_list` to `do_ls`: cut into lines by `fgets`, written as
strings, read in pieces of any size, and printed as strings again.
-/
import EcFtp.CStrings
import EcFtp.DataStream
import EcFtp.Prompt

namespace EcFtp

open Conduit CStrings

/-- `do_list` within its loop: what `ls` has still to say, what is in `sendline`, and how
much of it the call of `write` has handed over. -/
structure ListState where
  unread : Bytes
  sendline : Bytes
  handed : Nat
deriving Repr, DecidableEq

namespace ListState

/-- `fgets(sendline, MAXLINE, in)`. -/
def fgets (unread : Bytes) : ListState where
  unread := (takeLine (maxLine - 1) unread).2
  sendline := (takeLine (maxLine - 1) unread).1
  handed := 0

/-- The bytes of `sendline` that `write(datafd, sendline, strlen(sendline))` is for. -/
def text (s : ListState) : Bytes := cstr s.sendline

/-- What a call of `write` that hands over `n` bytes leaves: itself, or the next line. -/
def hand (s : ListState) (n : Nat) : ListState :=
  if s.handed + n < s.text.length then { s with handed := s.handed + n }
    else fgets s.unread

/-- Nothing is lost to `strlen`, and as long as something is left there is a line. -/
structure Printable (s : ListState) : Prop where
  noNul : 0 ∉ s.sendline ++ s.unread
  settled : s.handed < s.sendline.length ∨ s.sendline = [] ∧ s.unread = []

variable {s : ListState} {bs : Bytes} {n : Nat}

theorem sendline_append_unread (bs : Bytes) :
    (fgets bs).sendline ++ (fgets bs).unread = bs :=
  takeLine_append (maxLine - 1) bs

theorem sendline_fgets_ne_nil (hne : bs ≠ []) : (fgets bs).sendline ≠ [] := by
  intro hnil
  have hshorter := length_takeLine_lt hne (maxLine - 2)
  have happend := sendline_append_unread bs
  rw [hnil, List.nil_append] at happend
  change (fgets bs).unread.length < bs.length at hshorter
  rw [happend] at hshorter
  exact Nat.lt_irrefl _ hshorter

theorem printable_fgets (h : 0 ∉ bs) : (fgets bs).Printable := by
  refine ⟨?_, ?_⟩
  · rw [sendline_append_unread]
    exact h
  · by_cases hbs : bs = []
    · subst hbs
      exact .inr ⟨rfl, rfl⟩
    · exact .inl (List.length_pos_iff.mpr (sendline_fgets_ne_nil hbs))

theorem Printable.text_eq (h : s.Printable) : s.text = s.sendline :=
  cstr_of_not_mem fun hin => h.noNul (List.mem_append_left _ hin)

theorem Printable.hand (h : s.Printable) : (s.hand n).Printable := by
  unfold ListState.hand
  split
  · rename_i hlt
    rw [h.text_eq] at hlt
    exact ⟨h.noNul, .inl hlt⟩
  · exact printable_fgets fun hin => h.noNul (List.mem_append_right _ hin)

/-- What is not yet handed over. -/
def left (s : ListState) : Bytes := s.sendline.drop s.handed ++ s.unread

theorem left_fgets (bs : Bytes) : (fgets bs).left = bs := sendline_append_unread bs

theorem Printable.left_hand (h : s.Printable) (hle : s.handed + n ≤ s.text.length) :
    s.left = (s.text.drop s.handed).take n ++ (s.hand n).left := by
  rw [h.text_eq] at hle
  unfold ListState.hand
  rw [h.text_eq]
  split
  · unfold left
    rw [← List.append_assoc]
    congr 1
    rw [← List.drop_drop, List.take_append_drop]
  · have hall : s.handed + n = s.sendline.length := by omega
    rw [left_fgets, left, List.take_of_length_le]
    rw [List.length_drop]
    omega

end ListState

/-- `do_list` on a listing without a NUL, between two bytes it hands over. -/
structure Listing where
  state : ListState
  printable : state.Printable

def Listing.start (bs : Bytes) (h : 0 ∉ bs) : Listing :=
  ⟨.fgets bs, ListState.printable_fgets h⟩

def listSource : Source Listing Byte where
  left s := s.state.left
  Writes s msg s' := ∃ n, 0 < n ∧ s.state.handed + n ≤ s.state.text.length ∧
    s'.state = s.state.hand n ∧ msg = (s.state.text.drop s.state.handed).take n
  ne_nil := by
    rintro s msg s' ⟨n, hn, hle, _, rfl⟩
    apply List.length_pos_iff.mp
    rw [List.length_take, List.length_drop]
    omega
  left_eq := by
    rintro s msg s' ⟨n, _, hle, hnext, rfl⟩
    rw [hnext]
    exact s.printable.left_hand hle
  goes_on s hleft := by
    have hlt : s.state.handed < s.state.text.length := by
      rw [s.printable.text_eq]
      refine s.printable.settled.resolve_right fun hnone => hleft ?_
      rw [ListState.left, hnone.1, hnone.2, List.drop_nil]
      rfl
    obtain ⟨b, rest, hdrop⟩ := List.exists_cons_of_length_pos (by
      rw [List.length_drop]
      exact Nat.sub_pos_of_lt hlt : 0 < (s.state.text.drop s.state.handed).length)
    exact ⟨b, ⟨s.state.hand 1, s.printable.hand⟩, 1, Nat.one_pos, hlt,
      rfl, by rw [hdrop]; rfl⟩

/-- `do_ls` in its reading loop: what was read, and what was printed. -/
structure Printing where
  loop : Receiving
  printed : Bytes
  printed_eq : 0 ∉ loop.received → printed = loop.received

namespace Printing

def start : Printing := ⟨.start, [], fun _ => rfl⟩

/-- `printf("%s", recvline)` after a `read`; `recvline` is all zeroes behind it. -/
def Prints (s : Printing) (r : ReadResult) (s' : Printing) : Prop :=
  readStep s.loop r = some s'.loop ∧ s'.printed = s.printed ++ cstr r.bytes

theorem exists_prints {s : Printing} {r : ReadResult} {loop : Receiving}
    (h : readStep s.loop r = some loop) : ∃ s', s.Prints r s' := by
  refine ⟨⟨loop, s.printed ++ cstr r.bytes, fun hnul => ?_⟩, h, rfl⟩
  obtain ⟨_, rfl⟩ := readStep_some h
  have hboth : 0 ∉ s.loop.received ++ r.bytes := hnul
  rw [s.printed_eq fun hin => hboth (List.mem_append_left _ hin),
    cstr_of_not_mem fun hin => hboth (List.mem_append_right _ hin)]

end Printing

def printingSink : Sink Printing Byte where
  got s := s.loop.received
  status s := s.loop.status
  Reads s msg s' := msg ≠ [] ∧ s.Prints (.data msg) s'
  Stops s st s' := st ≠ .reading ∧ s.Prints (stopResult st) s'
  reads := by
    rintro s msg s' ⟨hne, hread, _⟩
    exact receivingSink.reads ⟨hne, hread⟩
  stops := by
    rintro s st s' ⟨hst, hread, _⟩
    exact receivingSink.stops ⟨hst, hread⟩
  goes_on s hreading := by
    obtain ⟨hreads, r', _, hstop⟩ := receivingSink.goes_on s.loop hreading
    refine ⟨fun b => ?_, ?_⟩
    · obtain ⟨loop, hne, hread⟩ := hreads b
      obtain ⟨s', hs'⟩ := Printing.exists_prints hread
      exact ⟨s', hne, hs'⟩
    · obtain ⟨s', hs'⟩ := Printing.exists_prints hstop
      exact ⟨s', by decide, hs'⟩

def listingStart (bs : Bytes) (h : 0 ∉ bs) : Flow Listing Printing Byte :=
  ⟨.start bs h, [], false, .start⟩

theorem carries_listing (bs : Bytes) (h : 0 ∉ bs) :
    Carries listSource printingSink bs (listingStart bs h) where
  whole := ListState.left_fgets bs
  of_ended hended := nomatch hended

theorem unbroken_listing (bs : Bytes) (h : 0 ∉ bs) :
    Unbroken listSource printingSink (listingStart bs h) where
  of_closed hclosed := nomatch hclosed
  not_failed hfailed := nomatch hfailed

/-- Whatever is printed so far is a beginning of the listing. -/
theorem printed_begins {bs : Bytes} {h : 0 ∉ bs} {room : Nat}
    {s : Flow Listing Printing Byte}
    (hs : Relation.ReflTransGen (AnyStep listSource printingSink room)
      (listingStart bs h) s) :
    s.sink.printed = s.sink.loop.received ∧ s.sink.printed <+: bs := by
  have hbegins : s.sink.loop.received <+: bs :=
    (carries_runs (carries_listing bs h) hs).got_begins
  have hprinted := s.sink.printed_eq fun hin => h (hbegins.subset hin)
  exact ⟨hprinted, hprinted ▸ hbegins⟩

/-- `do_ls` prints the listing `do_list` gets from `ls`, however its lines are cut and
its bytes arrive: what its loop has printed is a beginning of it at any time, even if
the server is gone or a `read` fails, and when nothing breaks every run can be continued
to the end, where all of it is printed, and none is longer than it takes to write and
read each byte once. -/
theorem listing_printed (bs : Bytes) (hnul : 0 ∉ bs) (room : Nat) (hroom : 0 < room) :
    (∀ s, Relation.ReflTransGen (AnyStep listSource printingSink room)
      (listingStart bs hnul) s →
      s.sink.printed <+: bs) ∧
    (∀ s,
      Relation.ReflTransGen (Step listSource printingSink room) (listingStart bs hnul) s →
      (∃ s', Relation.ReflTransGen (Step listSource printingSink room) s s' ∧
        s'.sink.loop.status = .ended) ∧
      (s.sink.loop.status = .ended → s.sink.printed = bs)) ∧
    ∀ (run : Nat → Flow Listing Printing Byte) (n : Nat), run 0 = listingStart bs hnul →
      (∀ i < n, AnyStep listSource printingSink room (run i) (run (i + 1))) →
        n ≤ 2 * bs.length + 2 := by
  refine ⟨fun s hs => (printed_begins hs).2, fun s hs => ⟨?_, fun hended => ?_⟩,
    fun run n hstart hsteps => ?_⟩
  · exact exists_stopped hroom (unbroken_runs (unbroken_listing bs hnul) hs)
  · have hgot : s.sink.loop.received = bs :=
      (unbroken_runs (unbroken_listing bs hnul) hs).got_eq
        (carries_runs (carries_listing bs hnul) (runs_any hs)) hended
    exact (printed_begins (runs_any hs)).1.trans hgot
  · have hbound := run_bounded run n hsteps
    have hahead : ahead listSource printingSink (run 0) = 2 * bs.length + 2 := by
      rw [hstart]
      change 2 * (ListState.fgets bs).left.length + 0 + 1 + 1 = _
      rw [ListState.left_fgets]
    omega

/-- A listing of two files over a connection that has room for a byte. -/
theorem listing_printed_two : ∃ s,
    Relation.ReflTransGen (Step listSource printingSink 1)
        (listingStart [97, 10, 98, 10] (by decide)) s ∧
      s.sink.loop.status = .ended ∧ s.sink.printed = [97, 10, 98, 10] := by
  obtain ⟨_, hruns, _⟩ := listing_printed [97, 10, 98, 10] (by decide) 1 Nat.one_pos
  obtain ⟨⟨s, hs, hended⟩, _⟩ := hruns _ .refl
  exact ⟨s, hs, hended, (hruns s hs).2 hended⟩

end EcFtp
