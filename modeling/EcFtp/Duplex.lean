/-
Two processes joined by a stream in each direction.  Each step of either one is
a step of the pair, so a run is one interleaving of the two.  What a process has
read is always a prefix of what the other has sent; a run in which both end is
therefore described by how each of them ends on its own.
-/
import Mathlib.Data.List.Infix
import Mathlib.Logic.Relation

namespace Duplex

variable {β α γ δ : Type}

/-- A process sends, waits for a number of entries, collects what arrives until
the stream ends, closes the stream it writes, or is done. -/
inductive Proc (β α : Type) where
  | done (a : α)
  | send (msg : List β) (next : Proc β α)
  | receive (n : Nat) (next : List β → Proc β α)
  | collect (got : List β) (next : List β → Proc β α)
  | close (next : Proc β α)

namespace Proc

def bind : Proc β α → (α → Proc β γ) → Proc β γ
  | done a, k => k a
  | send msg next, k => send msg (next.bind k)
  | receive n next, k => receive n fun msg => (next msg).bind k
  | collect got next, k => collect got fun msg => (next msg).bind k
  | close next, k => close (next.bind k)

theorem bind_assoc (p : Proc β α) (k : α → Proc β γ) (l : γ → Proc β δ) :
    (p.bind k).bind l = p.bind fun a => (k a).bind l := by
  induction p with
  | done a => rfl
  | send msg next ih => exact congrArg (send msg) ih
  | receive n next ih => exact congrArg (receive n) (funext ih)
  | collect got next ih => exact congrArg (collect got) (funext ih)
  | close next ih => exact congrArg close ih

instance : Monad (Proc β) where
  pure := done
  bind := bind

end Proc

/-- Entries on their way, whether the writer has closed the stream, and whether
the reader has come to its end. -/
structure Stream (β : Type) where
  pending : List β
  closed : Bool
  ended : Bool

def Stream.empty : Stream β := ⟨[], false, false⟩

/-- One step of a process on the stream it reads and the stream it writes. -/
inductive Step : Proc β α → Stream β → Stream β →
    Proc β α → Stream β → Stream β → Prop
  | send {msg : List β} {next : Proc β α} {inp out : Stream β}
      (hopen : out.closed = false) :
      Step (.send msg next) inp out next inp
        { out with pending := out.pending ++ msg }
  | receive {n : Nat} {next : List β → Proc β α} {inp out : Stream β}
      {msg rest : List β} (hlen : msg.length = n)
      (hmsg : inp.pending = msg ++ rest) :
      Step (.receive n next) inp out (next msg) { inp with pending := rest } out
  | collect {got : List β} {next : List β → Proc β α} {inp out : Stream β}
      {msg rest : List β} (hne : msg ≠ []) (hmsg : inp.pending = msg ++ rest) :
      Step (.collect got next) inp out (.collect (got ++ msg) next)
        { inp with pending := rest } out
  | finish {got : List β} {next : List β → Proc β α} {inp out : Stream β}
      (hempty : inp.pending = []) (hclosed : inp.closed = true) :
      Step (.collect got next) inp out (next got) { inp with ended := true } out
  | close {next : Proc β α} {inp out : Stream β} :
      Step (.close next) inp out next inp { out with closed := true }

section Inversion

variable {p : Proc β α} {inp out inp' out' : Stream β}

theorem Step.of_done {a : α} (h : Step (.done a) inp out p inp' out') : False := by
  cases h

theorem Step.of_send {msg : List β} {next : Proc β α}
    (h : Step (.send msg next) inp out p inp' out') :
    p = next ∧ inp' = inp ∧
      out' = { out with pending := out.pending ++ msg } := by
  cases h with
  | send hopen => exact ⟨rfl, rfl, rfl⟩

theorem Step.of_receive {n : Nat} {next : List β → Proc β α}
    (h : Step (.receive n next) inp out p inp' out') :
    ∃ msg rest, msg.length = n ∧ inp.pending = msg ++ rest ∧ p = next msg ∧
      inp' = { inp with pending := rest } ∧ out' = out := by
  cases h with
  | @receive _ _ _ _ msg rest hlen hmsg =>
      exact ⟨msg, rest, hlen, hmsg, rfl, rfl, rfl⟩

end Inversion

/-- How a process ends: with what it read, what it sent, whether it came to the
end of the stream it reads, and its result. -/
inductive Ends : Proc β α → List β → List β → Bool → α → Prop
  | done (a : α) : Ends (.done a) [] [] false a
  | send {msg u w : List β} {next : Proc β α} {e : Bool} {a : α}
      (h : Ends next u w e a) : Ends (.send msg next) u (msg ++ w) e a
  | receive {msg u w : List β} {n : Nat} {next : List β → Proc β α} {e : Bool}
      {a : α} (hlen : msg.length = n) (h : Ends (next msg) u w e a) :
      Ends (.receive n next) (msg ++ u) w e a
  | collect {got msg u w : List β} {next : List β → Proc β α} {e : Bool} {a : α}
      (h : Ends (.collect (got ++ msg) next) u w e a) :
      Ends (.collect got next) (msg ++ u) w e a
  | finish {got u w : List β} {next : List β → Proc β α} {e : Bool} {a : α}
      (h : Ends (next got) u w e a) : Ends (.collect got next) u w true a
  | close {u w : List β} {next : Proc β α} {e : Bool} {a : α}
      (h : Ends next u w e a) : Ends (.close next) u w e a

/-- From `p` on, `u` is read and `w` is sent until `q` is left to do. -/
def Leads (p : Proc β α) (u w : List β) (e : Bool) (q : Proc β α) : Prop :=
  ∀ {u' w' e' a}, Ends q u' w' e' a → Ends p (u ++ u') (w ++ w') (e || e') a

/-- What was sent is what was read and what is pending; behind its end a stream
carries nothing. -/
structure Carries (s : Stream β) (sent got : List β) : Prop where
  sent_eq : sent = got ++ s.pending
  of_ended : s.ended = true → s.pending = [] ∧ s.closed = true

section Histories

variable {p q r : Proc β α} {u w u' w' sent got : List β} {e e' : Bool}
  {inp out inp' out' : Stream β}

theorem Leads.refl (p : Proc β α) : Leads p [] [] false p := by
  intro u w e a h
  simpa using h

theorem Leads.trans (h : Leads p u w e q) (h' : Leads q u' w' e' r) :
    Leads p (u ++ u') (w ++ w') (e || e') r := by
  intro u'' w'' e'' a hends
  have hp := h (h' hends)
  rw [List.append_assoc, List.append_assoc, Bool.or_assoc]
  exact hp

theorem carries_empty : Carries (β := β) .empty [] [] :=
  ⟨rfl, fun h => nomatch h⟩

/-- What a step reads and sends, and what becomes of the two streams. -/
theorem Step.leads (h : Step p inp out q inp' out') :
    ∃ u w e, Leads p u w e q ∧ inp'.ended = (inp.ended || e) ∧
      out'.ended = out.ended ∧
      (∀ {sent got}, Carries inp sent got → Carries inp' sent (got ++ u)) ∧
      (∀ {sent got}, Carries out sent got → Carries out' (sent ++ w) got) := by
  cases h with
  | @send msg _ _ _ hopen =>
      refine ⟨[], msg, false, fun h => by simpa using .send h, by simp, rfl,
        fun hin => by simpa using hin, fun hout => ⟨?_, fun hended => ?_⟩⟩
      · rw [hout.sent_eq, List.append_assoc]
      · rw [(hout.of_ended hended).2] at hopen
        cases hopen
  | @receive n next _ _ msg rest hlen hmsg =>
      refine ⟨msg, [], false, fun h => by simpa using .receive hlen h, by simp,
        rfl, fun hin => ⟨?_, fun hended => ?_⟩, fun hout => by simpa using hout⟩
      · rw [hin.sent_eq, hmsg, List.append_assoc]
      · obtain ⟨hnil, hclosed⟩ := hin.of_ended hended
        rw [hmsg, List.append_eq_nil_iff] at hnil
        exact ⟨hnil.2, hclosed⟩
  | @collect got next _ _ msg rest hne hmsg =>
      refine ⟨msg, [], false, fun h => by simpa using .collect h, by simp, rfl,
        fun hin => ⟨?_, fun hended => ?_⟩, fun hout => by simpa using hout⟩
      · rw [hin.sent_eq, hmsg, List.append_assoc]
      · obtain ⟨hnil, hclosed⟩ := hin.of_ended hended
        rw [hmsg, List.append_eq_nil_iff] at hnil
        exact ⟨hnil.2, hclosed⟩
  | finish hempty hclosed =>
      refine ⟨[], [], true, fun h => by simpa using .finish h, by simp, rfl,
        fun hin => ⟨?_, fun _ => ⟨hempty, hclosed⟩⟩,
        fun hout => by simpa using hout⟩
      rw [hin.sent_eq, List.append_nil]
  | close =>
      refine ⟨[], [], false, fun h => by simpa using .close h, by simp, rfl,
        fun hin => by simpa using hin, fun hout => ⟨?_, fun hended => ?_⟩⟩
      · rw [List.append_nil]
        exact hout.sent_eq
      · exact ⟨(hout.of_ended hended).1, rfl⟩

end Histories

/-- The two processes and the streams between them. -/
structure Net (β α γ : Type) where
  left : Proc β α
  right : Proc β γ
  toRight : Stream β
  toLeft : Stream β

namespace Net

def start (p : Proc β α) (q : Proc β γ) : Net β α γ := ⟨p, q, .empty, .empty⟩

/-- A step of the pair is a step of one of the two. -/
inductive Step : Net β α γ → Net β α γ → Prop
  | left {s : Net β α γ} {p : Proc β α} {inp out : Stream β}
      (h : Duplex.Step s.left s.toLeft s.toRight p inp out) :
      Step s { s with left := p, toLeft := inp, toRight := out }
  | right {s : Net β α γ} {q : Proc β γ} {inp out : Stream β}
      (h : Duplex.Step s.right s.toRight s.toLeft q inp out) :
      Step s { s with right := q, toRight := inp, toLeft := out }

/-- Any number of steps, in any order. -/
abbrev Runs : Net β α γ → Net β α γ → Prop := Relation.ReflTransGen Step

/-- What a step read: the entries it took from the stream. -/
def taken (before after : Stream β) : List (List β) :=
  if after.pending.length < before.pending.length then
    [before.pending.take (before.pending.length - after.pending.length)]
  else []

/-- A run with the reads of the left process and those of the right one. -/
inductive Transcript (s₀ : Net β α γ) :
    Net β α γ → List (List β) → List (List β) → Prop
  | refl : Transcript s₀ s₀ [] []
  | tail {s s' : Net β α γ} {l r : List (List β)} (h : Transcript s₀ s l r)
      (hstep : Step s s') :
      Transcript s₀ s' (l ++ taken s.toLeft s'.toLeft)
        (r ++ taken s.toRight s'.toRight)

theorem Transcript.runs {s₀ s : Net β α γ} {l r : List (List β)}
    (h : Transcript s₀ s l r) : Runs s₀ s := by
  induction h with
  | refl => exact .refl
  | tail _ hstep ih => exact ih.tail hstep

theorem Runs.transcript {s₀ s : Net β α γ} (h : Runs s₀ s) :
    ∃ l r, Transcript s₀ s l r := by
  induction h with
  | refl => exact ⟨[], [], .refl⟩
  | tail _ hstep ih =>
      obtain ⟨l, r, hs⟩ := ih
      exact ⟨_, _, hs.tail hstep⟩

@[simp] theorem taken_self (s : Stream β) : taken s s = [] := by
  simp [taken]

@[simp] theorem taken_append (s : Stream β) (msg : List β) :
    taken s { s with pending := s.pending ++ msg } = [] := by
  simp [taken]

theorem taken_of_append {s : Stream β} {msg rest : List β} (hne : msg ≠ [])
    (h : s.pending = msg ++ rest) :
    taken s { s with pending := rest } = [msg] := by
  have hpos := List.length_pos_iff.mpr hne
  simp [taken, h, hpos]

/-- What both processes have read and sent so far. -/
def Explained (p : Proc β α) (q : Proc β γ) (s : Net β α γ) : Prop :=
  ∃ ul wl ur wr, Leads p ul wl s.toLeft.ended s.left ∧
    Leads q ur wr s.toRight.ended s.right ∧
    Carries s.toRight wl ur ∧ Carries s.toLeft wr ul

variable {p : Proc β α} {q : Proc β γ} {s s' : Net β α γ}

theorem explained_start (p : Proc β α) (q : Proc β γ) :
    Explained p q (start p q) :=
  ⟨[], [], [], [], Leads.refl p, Leads.refl q, carries_empty, carries_empty⟩

/-- One step keeps the histories. -/
theorem Explained.step (h : Explained p q s) (hstep : Step s s') :
    Explained p q s' := by
  obtain ⟨ul, wl, ur, wr, hl, hr, hright, hleft⟩ := h
  cases hstep with
  | left hstep =>
      obtain ⟨u, w, e, hleads, hin, hout, hread, hsend⟩ := hstep.leads
      refine ⟨ul ++ u, wl ++ w, ur, wr, ?_, ?_, hsend hright, hread hleft⟩
      · rw [hin]
        exact hl.trans hleads
      · rw [hout]
        exact hr
  | right hstep =>
      obtain ⟨u, w, e, hleads, hin, hout, hread, hsend⟩ := hstep.leads
      refine ⟨ul, wl, ur ++ u, wr ++ w, ?_, ?_, hread hright, hsend hleft⟩
      · rw [hout]
        exact hl
      · rw [hin]
        exact hr.trans hleads

/-- Every run keeps them. -/
theorem Runs.explained (h : Runs (start p q) s) : Explained p q s := by
  induction h with
  | refl => exact explained_start p q
  | tail _ hstep ih => exact ih.step hstep

/-- A run in which both processes are done is one in which each of them ends,
having read a prefix of what the other one sent, and all of it where it came to
the end. -/
theorem Runs.ends {a : α} {c : γ} (h : Runs (start p q) s)
    (hl : s.left = .done a) (hr : s.right = .done c) :
    ∃ ul wl el ur wr er, Ends p ul wl el a ∧ Ends q ur wr er c ∧
      ur <+: wl ∧ ul <+: wr ∧ (er = true → ur = wl) ∧ (el = true → ul = wr) := by
  obtain ⟨ul, wl, ur, wr, hleft, hright, htoRight, htoLeft⟩ := h.explained
  rw [hl] at hleft
  rw [hr] at hright
  have hendl := hleft (.done a)
  have hendr := hright (.done c)
  rw [List.append_nil, List.append_nil, Bool.or_false] at hendl hendr
  refine ⟨ul, wl, _, ur, wr, _, hendl, hendr, ⟨_, htoRight.sent_eq.symm⟩,
    ⟨_, htoLeft.sent_eq.symm⟩, fun hended => ?_, fun hended => ?_⟩
  · rw [htoRight.sent_eq, (htoRight.of_ended hended).1, List.append_nil]
  · rw [htoLeft.sent_eq, (htoLeft.of_ended hended).1, List.append_nil]

end Net

section Sequences

variable {p : Proc β δ} {k : δ → Proc β α} {u w : List β} {e : Bool} {a : α}

/-- A process that collects goes on with some of what it was still to read. -/
theorem Ends.collect_inv {got : List β} {next : List β → Proc β α}
    (h : Ends (.collect got next) u w e a) :
    e = true ∧ ∃ msg rest e', u = msg ++ rest ∧
      Ends (next (got ++ msg)) rest w e' a := by
  generalize hp : Proc.collect got next = q at h
  induction h generalizing got with
  | @collect got' msg u w next' e a h ih =>
      cases hp
      obtain ⟨rfl, more, rest, e', rfl, hends⟩ := ih rfl
      refine ⟨rfl, msg ++ more, rest, e', (List.append_assoc ..).symm, ?_⟩
      rw [← List.append_assoc]
      exact hends
  | @finish got' u w next' e a h ih =>
      cases hp
      refine ⟨rfl, [], u, e, rfl, ?_⟩
      rw [List.append_nil]
      exact h
  | _ => cases hp

/-- The end of a sequence of two processes is the end of one after that of the
other. -/
theorem Ends.bind_inv (h : Ends (p.bind k) u w e a) :
    ∃ b u₁ w₁ e₁ u₂ w₂ e₂, Ends p u₁ w₁ e₁ b ∧ Ends (k b) u₂ w₂ e₂ a ∧
      u = u₁ ++ u₂ ∧ w = w₁ ++ w₂ ∧ e = (e₁ || e₂) := by
  induction p generalizing u w e with
  | done b => exact ⟨b, [], [], false, u, w, e, .done b, h, rfl, rfl, rfl⟩
  | send msg next ih =>
      cases h with
      | send h =>
          obtain ⟨b, u₁, w₁, e₁, u₂, w₂, e₂, hp, hk, rfl, rfl, rfl⟩ := ih h
          exact ⟨b, u₁, msg ++ w₁, e₁, u₂, w₂, e₂, .send hp, hk, rfl,
            (List.append_assoc ..).symm, rfl⟩
  | receive n next ih =>
      cases h with
      | @receive msg _ _ _ _ _ _ hlen h =>
          obtain ⟨b, u₁, w₁, e₁, u₂, w₂, e₂, hp, hk, rfl, rfl, rfl⟩ := ih msg h
          exact ⟨b, msg ++ u₁, w₁, e₁, u₂, w₂, e₂, .receive hlen hp, hk,
            (List.append_assoc ..).symm, rfl, rfl⟩
  | collect got next ih =>
      obtain ⟨rfl, msg, rest, e', rfl, hnext⟩ := h.collect_inv
      obtain ⟨b, u₁, w₁, e₁, u₂, w₂, e₂, hp, hk, rfl, rfl, rfl⟩ := ih _ hnext
      exact ⟨b, msg ++ u₁, w₁, true, u₂, w₂, e₂, .collect (.finish hp), hk,
        (List.append_assoc ..).symm, rfl, rfl⟩
  | close next ih =>
      cases h with
      | close h =>
          obtain ⟨b, u₁, w₁, e₁, u₂, w₂, e₂, hp, hk, rfl, rfl, rfl⟩ := ih h
          exact ⟨b, u₁, w₁, e₁, u₂, w₂, e₂, .close hp, hk, rfl, rfl, rfl⟩

/-- What follows a process does not stand in the way of its steps. -/
theorem Step.bind {p' : Proc β δ} {inp out inp' out' : Stream β}
    (h : Step p inp out p' inp' out') (k : δ → Proc β α) :
    Step (p.bind k) inp out (p'.bind k) inp' out' := by
  cases h with
  | send hopen => exact .send hopen
  | receive hlen hmsg => exact .receive hlen hmsg
  | collect hne hmsg => exact .collect hne hmsg
  | finish hempty hclosed => exact .finish hempty hclosed
  | close => exact .close

namespace Net

variable {γ' : Type} {s s' : Net β α γ}

/-- The pair with a further process after each of the two. -/
def andThen (s : Net β α γ) (k : α → Proc β δ) (l : γ → Proc β γ') :
    Net β δ γ' :=
  ⟨s.left.bind k, s.right.bind l, s.toRight, s.toLeft⟩

theorem Runs.andThen (h : Runs s s') (k : α → Proc β δ) (l : γ → Proc β γ') :
    Runs (s.andThen k l) (s'.andThen k l) := by
  induction h with
  | refl => exact .refl
  | tail _ hstep ih =>
      refine ih.tail ?_
      cases hstep with
      | left hstep => exact .left (hstep.bind k)
      | right hstep => exact .right (hstep.bind l)

/-- What the left process sends, the right one receives. -/
theorem runs_toRight {msg : List β} {n : Nat} (hlen : msg.length = n)
    (p : Proc β α) (q : List β → Proc β γ) :
    Runs (start (.send msg p) (.receive n q)) (start p (q msg)) := by
  have hsend : Step (start (.send msg p) (.receive n q))
      ⟨p, .receive n q, ⟨[] ++ msg, false, false⟩, .empty⟩ := .left (.send rfl)
  have hreceive : Step ⟨p, .receive n q, ⟨[] ++ msg, false, false⟩, .empty⟩
      (start p (q msg)) := .right (.receive hlen (List.append_nil msg).symm)
  exact (Relation.ReflTransGen.single hsend).tail hreceive

/-- What the right process sends, the left one receives. -/
theorem runs_toLeft {msg : List β} {n : Nat} (hlen : msg.length = n)
    (p : List β → Proc β α) (q : Proc β γ) :
    Runs (start (.receive n p) (.send msg q)) (start (p msg) q) := by
  have hsend : Step (start (.receive n p) (.send msg q))
      ⟨.receive n p, q, .empty, ⟨[] ++ msg, false, false⟩⟩ := .right (.send rfl)
  have hreceive : Step ⟨.receive n p, q, .empty, ⟨[] ++ msg, false, false⟩⟩
      (start (p msg) q) := .left (.receive hlen (List.append_nil msg).symm)
  exact (Relation.ReflTransGen.single hsend).tail hreceive

end Net

end Sequences

end Duplex
