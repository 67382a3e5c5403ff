/-
Two processes, each of which only reads what the other one writes, come to one
result.  Steps of the two commute, what is collected may be split in any way, and
no run goes on forever; so every run can be continued to the same last state.
-/
import EcFtp.Duplex
import Mathlib.Order.RelClasses

namespace Duplex

variable {β α γ : Type}

section Commute

variable {p p' p'' : Proc β α} {q q' : Proc β γ}
  {inp out inp' out' inp'' out'' : Stream β} {msg rest : List β}

theorem Step.closed_inp (h : Step p inp out p' inp' out') : inp'.closed = inp.closed := by
  cases h <;> rfl

/-- A process does not mind that more comes in behind what it reads. -/
theorem Step.after_send (h : Step p inp out p' inp' out') (hopen : inp.closed = false)
    (msg : List β) :
    Step p { inp with pending := inp.pending ++ msg } out
      p' { inp' with pending := inp'.pending ++ msg } out' := by
  cases h with
  | send hsend => exact .send hsend
  | receive hlen hmsg => exact .receive hlen (by rw [hmsg, List.append_assoc])
  | collect hne hmsg => exact .collect hne (by rw [hmsg, List.append_assoc])
  | finish hempty hclosed =>
      rw [hclosed] at hopen
      cases hopen
  | close => exact .close

/-- Nor that nothing more will come. -/
theorem Step.after_close (h : Step p inp out p' inp' out') :
    Step p { inp with closed := true } out p' { inp' with closed := true } out' := by
  cases h with
  | send hsend => exact .send hsend
  | receive hlen hmsg => exact .receive hlen hmsg
  | collect hne hmsg => exact .collect hne hmsg
  | finish hempty hclosed => exact .finish hempty rfl
  | close => exact .close

/-- Nor that some of what it wrote before is read by now. -/
theorem Step.after_take (h : Step p inp out p' inp' out')
    (hmsg : out.pending = msg ++ rest) :
    ∃ rest', out'.pending = msg ++ rest' ∧
      Step p inp { out with pending := rest } p' inp' { out' with pending := rest' } := by
  cases h with
  | @send sent _ _ _ hopen =>
      refine ⟨rest ++ sent, ?_, .send hopen⟩
      change out.pending ++ sent = _
      rw [hmsg, List.append_assoc]
  | receive hlen hread => exact ⟨rest, hmsg, .receive hlen hread⟩
  | collect hne hread => exact ⟨rest, hmsg, .collect hne hread⟩
  | finish hempty hclosed => exact ⟨rest, hmsg, .finish hempty hclosed⟩
  | close => exact ⟨rest, hmsg, .close⟩

/-- Nor that the other side has come to the end of it. -/
theorem Step.after_finish (h : Step p inp out p' inp' out') (hempty : out.pending = [])
    (hclosed : out.closed = true) :
    out'.pending = [] ∧ out'.closed = true ∧
      Step p inp { out with ended := true } p' inp' { out' with ended := true } := by
  cases h with
  | send hopen =>
      rw [hclosed] at hopen
      cases hopen
  | receive hlen hread => exact ⟨hempty, hclosed, .receive hlen hread⟩
  | collect hne hread => exact ⟨hempty, hclosed, .collect hne hread⟩
  | finish hnil hend => exact ⟨hempty, hclosed, .finish hnil hend⟩
  | close => exact ⟨hempty, rfl, .close⟩

/-- Steps of two processes that read what the other one writes can be taken in
either order. -/
theorem Step.comm {toLeft toRight toLeft₁ toRight₁ toLeft₂ toRight₂ : Stream β}
    (hl : Step p toLeft toRight p' toLeft₁ toRight₁)
    (hr : Step q toRight toLeft q' toRight₂ toLeft₂) :
    ∃ toLeft₃ toRight₃, Step p toLeft₂ toRight₂ p' toLeft₃ toRight₃ ∧
      Step q toRight₁ toLeft₁ q' toRight₃ toLeft₃ := by
  cases hr with
  | @send msg _ _ _ hopen =>
      exact ⟨_, _, hl.after_send hopen msg, .send (hl.closed_inp.trans hopen)⟩
  | receive hlen hmsg =>
      obtain ⟨rest, hrest, hstep⟩ := hl.after_take hmsg
      exact ⟨_, _, hstep, .receive hlen hrest⟩
  | collect hne hmsg =>
      obtain ⟨rest, hrest, hstep⟩ := hl.after_take hmsg
      exact ⟨_, _, hstep, .collect hne hrest⟩
  | finish hempty hclosed =>
      obtain ⟨hnil, hend, hstep⟩ := hl.after_finish hempty hclosed
      exact ⟨_, _, hstep, .finish hnil hend⟩
  | close => exact ⟨_, _, hl.after_close, .close⟩

/-- One process can take different steps only where it collects, and then the
shorter one leads to the longer one. -/
theorem Step.confluent (h : Step p inp out p' inp' out')
    (h' : Step p inp out p'' inp'' out'') :
    (p' = p'' ∧ inp' = inp'' ∧ out' = out'') ∨ Step p' inp' out' p'' inp'' out'' ∨
      Step p'' inp'' out'' p' inp' out' := by
  cases h with
  | send hopen =>
      obtain ⟨rfl, rfl, rfl⟩ := h'.of_send
      exact .inl ⟨rfl, rfl, rfl⟩
  | receive hlen hmsg =>
      obtain ⟨msg', rest', hlen', hmsg', rfl, rfl, rfl⟩ := h'.of_receive
      obtain ⟨rfl, rfl⟩ := List.append_inj (hmsg.symm.trans hmsg') (hlen.trans hlen'.symm)
      exact .inl ⟨rfl, rfl, rfl⟩
  | @collect got next _ _ msg rest hne hmsg =>
      cases h' with
      | @collect _ _ _ _ msg' rest' hne' hmsg' =>
          rcases List.append_eq_append_iff.mp (hmsg.symm.trans hmsg') with
            ⟨more, rfl, rfl⟩ | ⟨more, rfl, rfl⟩
          · by_cases hmore : more = []
            · subst hmore
              simp
            · rw [← List.append_assoc]
              exact .inr (.inl (.collect hmore rfl))
          · by_cases hmore : more = []
            · subst hmore
              simp
            · rw [← List.append_assoc]
              exact .inr (.inr (.collect hmore rfl))
      | finish hempty hclosed =>
          rw [hempty] at hmsg
          exact absurd (List.append_eq_nil_iff.mp hmsg.symm).1 hne
  | finish hempty hclosed =>
      cases h' with
      | collect hne hmsg =>
          rw [hempty] at hmsg
          exact absurd (List.append_eq_nil_iff.mp hmsg.symm).1 hne
      | finish hnil hend => exact .inl ⟨rfl, rfl, rfl⟩
  | close =>
      cases h' with
      | close => exact .inl ⟨rfl, rfl, rfl⟩

end Commute

section Shapes

/-- A process without what it has collected so far. -/
def Proc.shape : Proc β α → Proc β α
  | .collect _ next => .collect [] next
  | p => p

/-- What a process may be when it has gone on. -/
inductive Proc.Next : Proc β α → Proc β α → Prop
  | send {msg : List β} {next : Proc β α} : Next next (.send msg next)
  | receive {n : Nat} {next : List β → Proc β α} (msg : List β) :
      Next (next msg) (.receive n next)
  | collect {got : List β} {next : List β → Proc β α} (msg : List β) :
      Next (next msg) (.collect got next)
  | close {next : Proc β α} : Next next (.close next)

/-- The shapes that lie ahead of a shape. -/
def Proc.Ahead (a b : Proc β α) : Prop := ∃ p, Next p b ∧ a = p.shape

theorem Proc.Next.ahead {p p' : Proc β α} (h : Next p' p) : Ahead p'.shape p.shape := by
  refine ⟨p', ?_, rfl⟩
  cases h with
  | send => exact .send
  | receive msg => exact .receive msg
  | collect msg => exact .collect msg
  | close => exact .close

theorem Proc.acc_shape (p : Proc β α) : Acc Ahead p.shape := by
  induction p with
  | done a => exact ⟨_, fun b ⟨p, hp, _⟩ => nomatch hp⟩
  | send msg next ih =>
      refine ⟨_, fun b ⟨p, hp, hb⟩ => ?_⟩
      cases hp with
      | send => exact hb ▸ ih
  | receive n next ih =>
      refine ⟨_, fun b ⟨p, hp, hb⟩ => ?_⟩
      cases hp with
      | receive msg => exact hb ▸ ih msg
  | collect got next ih =>
      refine ⟨_, fun b ⟨p, hp, hb⟩ => ?_⟩
      cases hp with
      | collect msg => exact hb ▸ ih msg
  | close next ih =>
      refine ⟨_, fun b ⟨p, hp, hb⟩ => ?_⟩
      cases hp with
      | close => exact hb ▸ ih

theorem Proc.wellFounded_ahead : WellFounded (Ahead (β := β) (α := α)) :=
  ⟨fun b => ⟨b, fun _ ⟨p, _, hp⟩ => hp ▸ p.acc_shape⟩⟩

/-- A step leads ahead, or takes from what is to be read and leaves the rest. -/
theorem Step.shape {p p' : Proc β α} {inp out inp' out' : Stream β}
    (h : Step p inp out p' inp' out') :
    Proc.Ahead p'.shape p.shape ∨ p'.shape = p.shape ∧ out' = out ∧
      inp'.pending.length < inp.pending.length := by
  cases h with
  | send hopen => exact .inl (Proc.Next.ahead .send)
  | @receive n next _ _ msg rest hlen hmsg => exact .inl (Proc.Next.ahead (.receive msg))
  | collect hne hmsg =>
      refine .inr ⟨rfl, rfl, ?_⟩
      rw [hmsg, List.length_append]
      exact Nat.lt_add_of_pos_left (List.length_pos_iff.mpr hne)
  | @finish got next _ _ hempty hclosed => exact .inl (Proc.Next.ahead (.collect got))
  | close => exact .inl (Proc.Next.ahead .close)

end Shapes

namespace Net

/-- Neither of the two can go on. -/
def Ended (s : Net β α γ) : Prop := ∀ s', ¬ Step s s'

/-- What gets smaller in a step: what one of the two has ahead of it, or how much is
still to be collected. -/
def ahead (s : Net β α γ) : Proc β α × Proc β γ × Nat :=
  (s.left.shape, s.right.shape, s.toLeft.pending.length + s.toRight.pending.length)

/-- No run goes on forever. -/
theorem wellFounded_step : WellFounded fun s' s : Net β α γ => Step s s' := by
  have hwf := Proc.wellFounded_ahead (β := β) (α := α) |>.prod_lex
    ((Proc.wellFounded_ahead (β := β) (α := γ)).prod_lex Nat.lt_wfRel.wf)
  refine Subrelation.wf (fun {s' s} hstep => ?_) (InvImage.wf ahead hwf)
  cases hstep with
  | left h =>
      rcases h.shape with hahead | ⟨hsame, rfl, hlt⟩
      · exact .left _ _ hahead
      · change Prod.Lex _ _ (_, _) (_, _)
        rw [hsame]
        exact .right _ (.right _ (Nat.add_lt_add_right hlt _))
  | right h =>
      rcases h.shape with hahead | ⟨hsame, rfl, hlt⟩
      · exact .right _ (.left _ _ hahead)
      · change Prod.Lex _ _ (_, _) (_, _)
        refine .right _ ?_
        rw [hsame]
        exact .right _ (Nat.add_lt_add_left hlt _)

variable {s t t' f : Net β α γ}

/-- Two steps from one state lead to one state again. -/
theorem Step.diamond (h : Step s t) (h' : Step s t') :
    ∃ u, Relation.ReflGen Step t u ∧ Runs t' u := by
  cases h with
  | left hl =>
      cases h' with
      | left hl' =>
          rcases hl.confluent hl' with ⟨rfl, rfl, rfl⟩ | hstep | hstep
          · exact ⟨_, .refl, .refl⟩
          · exact ⟨_, .single (.left hstep), .refl⟩
          · exact ⟨_, .refl, .single (.left hstep)⟩
      | right hr' =>
          obtain ⟨toLeft, toRight, hp, hq⟩ := hl.comm hr'
          exact ⟨_, .single (.right hq), .single (.left hp)⟩
  | right hr =>
      cases h' with
      | left hl' =>
          obtain ⟨toLeft, toRight, hp, hq⟩ := hl'.comm hr
          exact ⟨_, .single (.left hp), .single (.right hq)⟩
      | right hr' =>
          rcases hr.confluent hr' with ⟨rfl, rfl, rfl⟩ | hstep | hstep
          · exact ⟨_, .refl, .refl⟩
          · exact ⟨_, .single (.right hstep), .refl⟩
          · exact ⟨_, .refl, .single (.right hstep)⟩

/-- What has ended goes nowhere. -/
theorem Ended.eq_of_runs (h : Ended s) (hruns : Runs s t) : t = s := by
  cases Relation.ReflTransGen.cases_head hruns with
  | inl heq => exact heq.symm
  | inr hstep =>
      obtain ⟨u, hfirst, _⟩ := hstep
      exact absurd hfirst (h u)

/-- Where one run ends, every other one can be continued to. -/
theorem Runs.to_end (h : Runs s f) (hend : Ended f) (h' : Runs s t) : Runs t f := by
  obtain ⟨u, hfu, htu⟩ := Relation.church_rosser (fun _ _ _ => Step.diamond) h h'
  rwa [hend.eq_of_runs hfu] at htu

/-- The two processes in each other's place. -/
def swap (s : Net β α γ) : Net β γ α := ⟨s.right, s.left, s.toLeft, s.toRight⟩

theorem Runs.swap (h : Runs s t) : Runs s.swap t.swap := by
  induction h with
  | refl => exact .refl
  | tail _ hstep ih =>
      refine ih.tail ?_
      cases hstep with
      | left h => exact .right h
      | right h => exact .left h

/-- A process that is done stays so. -/
theorem Runs.right_done {c : γ} (h : Runs s t) (hr : s.right = .done c) :
    t.right = .done c := by
  induction h with
  | refl => exact hr
  | tail _ hstep ih =>
      cases hstep with
      | left _ => exact ih
      | right hstep =>
          rw [ih] at hstep
          exact hstep.of_done.elim

/-- Two processes that are done do not go on. -/
theorem ended_of_done {a : α} {c : γ} (hl : s.left = .done a) (hr : s.right = .done c) :
    Ended s := by
  intro s' hstep
  cases hstep with
  | left h =>
      rw [hl] at h
      exact h.of_done
  | right h =>
      rw [hr] at h
      exact h.of_done

/-- What a step took from a stream, and what it put into one. -/
theorem taken_of_carries {u : List β} {before after : Stream β}
    (h : before.pending = u ++ after.pending) : (taken before after).flatten = u := by
  unfold taken
  rw [h]
  by_cases hu : u = []
  · rw [hu]
    simp
  · have hpos := List.length_pos_iff.mpr hu
    simp [hpos]

theorem taken_of_grown {w : List β} {before after : Stream β}
    (h : after.pending = before.pending ++ w) : taken before after = [] := by
  unfold taken
  rw [h]
  simp

/-- The reads of a run are what its processes have read. -/
theorem Transcript.explained {p : Proc β α} {q : Proc β γ} {l r : List (List β)}
    (h : Transcript (start p q) s l r) :
    ∃ wl wr, Leads p l.flatten wl s.toLeft.ended s.left ∧
      Leads q r.flatten wr s.toRight.ended s.right ∧
      Carries s.toRight wl r.flatten ∧ Carries s.toLeft wr l.flatten := by
  have htaken : ∀ {before after : Stream β} {sent got u : List β},
    Carries before sent got →
      Carries after sent (got ++ u) → (taken before after).flatten = u := by
    intro before after sent got u hbefore hafter
    apply taken_of_carries
    have heq := hbefore.sent_eq.symm.trans hafter.sent_eq
    rwa [List.append_assoc, List.append_cancel_left_eq] at heq
  have hgrown : ∀ {before after : Stream β} {sent got w : List β},
    Carries before sent got →
      Carries after (sent ++ w) got → taken before after = [] := by
    intro before after sent got w hbefore hafter
    refine @taken_of_grown _ w _ _ ?_
    have heq := hafter.sent_eq
    rw [hbefore.sent_eq, List.append_assoc, List.append_cancel_left_eq] at heq
    exact heq.symm
  induction h with
  | refl => exact ⟨[], [], Leads.refl p, Leads.refl q, carries_empty, carries_empty⟩
  | tail _ hstep ih =>
      obtain ⟨wl, wr, hl, hr, hright, hleft⟩ := ih
      cases hstep with
      | left hstep =>
          obtain ⟨u, w, e, hleads, hin, hout, hread, hsend⟩ := hstep.leads
          rw [List.flatten_append, List.flatten_append, htaken hleft (hread hleft),
            hgrown hright (hsend hright), List.flatten_nil, List.append_nil]
          refine ⟨wl ++ w, wr, ?_, ?_, hsend hright, hread hleft⟩
          · rw [hin]
            exact hl.trans hleads
          · rw [hout]
            exact hr
      | right hstep =>
          obtain ⟨u, w, e, hleads, hin, hout, hread, hsend⟩ := hstep.leads
          rw [List.flatten_append, List.flatten_append, htaken hright (hread hright),
            hgrown hleft (hsend hleft), List.flatten_nil, List.append_nil]
          refine ⟨wl, wr ++ w, ?_, ?_, hread hright, hsend hleft⟩
          · rw [hout]
            exact hl
          · rw [hin]
            exact hr.trans hleads

end Net

end Duplex
