/-
Strings of the C library: bytes up to the first NUL, their tokens as `strtok`
hands them out one by one, and the numbers `atoi` reads and `printf` writes.
-/
import Mathlib

namespace CStrings

section Tokens

variable {α : Type} (delim : α → Bool)

/-- The next token, if there is one, and what the next call will look at. -/
def strtok (s : List α) : Option (List α) × List α :=
  match s.dropWhile delim with
  | [] => (none, [])
  | a :: s =>
      (some (a :: s.takeWhile fun b => !delim b),
        (s.dropWhile fun b => !delim b).tail)

/-- The maximal runs of characters that delimit nothing. -/
def tokens (s : List α) : List (List α) :=
  (s.splitOnP delim).filter fun t => !t.isEmpty

/-- A run of at least one character that delimits nothing. -/
structure Word (t : List α) : Prop where
  not_delim : ∀ a ∈ t, delim a = false
  ne_nil : t ≠ []

variable {delim} {s ds t rest : List α} {d : α}

theorem dropWhile_delims_append (hds : ∀ a ∈ ds, delim a = true) (s : List α) :
    (ds ++ s).dropWhile delim = s.dropWhile delim :=
  List.dropWhile_append_of_pos hds

theorem tokens_cons_delim (hd : delim d = true) :
    tokens delim (d :: s) = tokens delim s := by
  rw [tokens, List.splitOnP_cons_eq_if_modifyHead, if_pos hd,
    List.filter_cons_of_neg (by simp)]
  rfl

theorem tokens_delims_append (hds : ∀ a ∈ ds, delim a = true) (s : List α) :
    tokens delim (ds ++ s) = tokens delim s := by
  induction ds with
  | nil => rfl
  | cons d ds ih =>
      have hd : delim d = true := hds d List.mem_cons_self
      rw [List.cons_append, tokens_cons_delim hd]
      exact ih fun a ha => hds a (List.mem_cons_of_mem d ha)

theorem tokens_delims (hds : ∀ a ∈ ds, delim a = true) : tokens delim ds = [] := by
  have h := tokens_delims_append hds []
  rw [List.append_nil] at h
  rw [h]
  rfl

theorem Word.tokens (ht : Word delim t) : tokens delim t = [t] := by
  rw [CStrings.tokens, List.splitOnP_eq_singleton ht.not_delim,
    List.filter_cons_of_pos (by simpa using ht.ne_nil)]
  rfl

theorem Word.tokens_append (ht : Word delim t) (hd : delim d = true) :
    CStrings.tokens delim (t ++ d :: rest) = t :: CStrings.tokens delim rest := by
  rw [CStrings.tokens, List.splitOnP_append_cons_of_forall_mem ht.not_delim d hd,
    List.filter_cons_of_pos (by simpa using ht.ne_nil)]
  rfl

theorem strtok_delims (hds : ∀ a ∈ ds, delim a = true) :
    strtok delim ds = (none, []) := by
  rw [strtok, List.dropWhile_eq_nil_iff.mpr hds]

theorem strtok_delims_append (hds : ∀ a ∈ ds, delim a = true) (s : List α) :
    strtok delim (ds ++ s) = strtok delim s := by
  rw [strtok, dropWhile_delims_append hds, strtok]

theorem Word.strtok (ht : Word delim t) : strtok delim t = (some t, []) := by
  obtain ⟨a, t, rfl⟩ := List.exists_cons_of_ne_nil ht.ne_nil
  have ha : ¬ delim a = true := by simp [ht.not_delim a List.mem_cons_self]
  have htail : ∀ b ∈ t, (!delim b) = true := fun b hb => by
    simp [ht.not_delim b (List.mem_cons_of_mem a hb)]
  simp only [CStrings.strtok, List.dropWhile_cons_of_neg ha,
    List.takeWhile_eq_self_iff.mpr htail, List.dropWhile_eq_nil_iff.mpr htail,
    List.tail_nil]

theorem Word.strtok_append (ht : Word delim t) (hd : delim d = true) :
    CStrings.strtok delim (t ++ d :: rest) = (some t, rest) := by
  obtain ⟨a, t, rfl⟩ := List.exists_cons_of_ne_nil ht.ne_nil
  have ha : ¬ delim a = true := by simp [ht.not_delim a List.mem_cons_self]
  have htail : ∀ b ∈ t, (!delim b) = true := fun b hb => by
    simp [ht.not_delim b (List.mem_cons_of_mem a hb)]
  simp only [CStrings.strtok, List.cons_append, List.dropWhile_cons_of_neg ha,
    List.takeWhile_append_of_pos htail, List.dropWhile_append_of_pos htail]
  simp [hd]

/-- The forms a text has before its first token is taken. -/
inductive Parts (delim : α → Bool) : List α → Prop where
  | none {ds : List α} (hds : ∀ a ∈ ds, delim a = true) : Parts delim ds
  | last {ds t : List α} (hds : ∀ a ∈ ds, delim a = true) (ht : Word delim t) :
      Parts delim (ds ++ t)
  | more {ds t : List α} {d : α} (hds : ∀ a ∈ ds, delim a = true)
      (ht : Word delim t) (hd : delim d = true) (rest : List α) :
      Parts delim (ds ++ (t ++ d :: rest))

/-- A text is a run on which `p` holds, and what follows it. -/
theorem exists_run (p : α → Bool) (s : List α) : ∃ run rest,
    (∀ a ∈ run, p a = true) ∧ (∀ a ∈ rest.head?, p a = false) ∧ s = run ++ rest := by
  induction s with
  | nil => exact ⟨[], [], by simp, by simp, rfl⟩
  | cons a s ih =>
      by_cases ha : p a = true
      · obtain ⟨run, rest, hrun, hrest, rfl⟩ := ih
        exact ⟨a :: run, rest, List.forall_mem_cons.mpr ⟨ha, hrun⟩, hrest, rfl⟩
      · exact ⟨[], a :: s, by simp, by simpa using ha, rfl⟩

theorem parts (delim : α → Bool) (s : List α) : Parts delim s := by
  obtain ⟨ds, s, hds, hs, rfl⟩ := exists_run delim s
  cases s with
  | nil => simpa using Parts.none hds
  | cons a s =>
      have ha : delim a = false := hs a rfl
      obtain ⟨t, rest, ht, hrest, rfl⟩ := exists_run (fun b => !delim b) s
      have hword : Word delim (a :: t) :=
        ⟨List.forall_mem_cons.mpr ⟨ha, by simpa using ht⟩, List.cons_ne_nil a t⟩
      cases rest with
      | nil => simpa using Parts.last hds hword
      | cons d rest => exact .more hds hword (by simpa using hrest d rfl) rest

/-- The calls of `strtok` with one set of delimiters run through the tokens; a token
and what is looked at next lie one behind the other in the text. -/
theorem strtok_eq (s : List α) : ∃ rest,
    strtok delim s = ((tokens delim s).head?, rest) ∧
      tokens delim rest = (tokens delim s).tail ∧
      ((tokens delim s).head?.getD []).length + rest.length ≤ s.length := by
  cases parts delim s with
  | none hds =>
      rw [tokens_delims hds, strtok_delims hds]
      exact ⟨[], rfl, rfl, Nat.zero_le _⟩
  | last hds ht =>
      rw [tokens_delims_append hds, ht.tokens, strtok_delims_append hds, ht.strtok]
      exact ⟨[], rfl, rfl, by simp⟩
  | more hds ht hd rest =>
      rw [tokens_delims_append hds, ht.tokens_append hd, strtok_delims_append hds,
        ht.strtok_append hd]
      refine ⟨rest, rfl, rfl, ?_⟩
      simp only [List.head?_cons, Option.getD_some, List.length_append, List.length_cons]
      omega

theorem strtok_fst (s : List α) : (strtok delim s).1 = (tokens delim s).head? := by
  obtain ⟨rest, hs, _⟩ := @strtok_eq _ delim s
  rw [hs]

theorem tokens_strtok_snd (s : List α) :
    tokens delim (strtok delim s).2 = (tokens delim s).tail := by
  obtain ⟨rest, hs, hrest, _⟩ := @strtok_eq _ delim s
  rw [hs, hrest]

theorem strtok_length (s : List α) :
    ((strtok delim s).1.getD []).length + (strtok delim s).2.length ≤ s.length := by
  obtain ⟨rest, hs, _, hlen⟩ := @strtok_eq _ delim s
  rw [hs]
  exact hlen

end Tokens

section Trimming

variable {α : Type} {delim : α → Bool} {s t u ds es : List α}

/-- A text that neither begins nor ends with a delimiter. -/
structure Tight (delim : α → Bool) (t : List α) : Prop where
  head : ∀ a ∈ t.head?, delim a = false
  last : ∀ a ∈ t.getLast?, delim a = false

/-- A text, and what is left of it without the delimiters around it. -/
inductive Trimmed (delim : α → Bool) : List α → List α → Prop where
  | blank {ds : List α} (hds : ∀ a ∈ ds, delim a = true) : Trimmed delim ds []
  | text {ds t es : List α} (hds : ∀ a ∈ ds, delim a = true) (ht : Tight delim t)
      (hne : t ≠ []) (hes : ∀ a ∈ es, delim a = true) : Trimmed delim (ds ++ (t ++ es)) t

theorem tight_nil : Tight delim [] := ⟨by simp, by simp⟩

theorem exists_trimmed (delim : α → Bool) (s : List α) : ∃ t, Trimmed delim s t := by
  obtain ⟨ds, s, hds, hs, rfl⟩ := exists_run delim s
  obtain ⟨es, t, hes, ht, hsplit⟩ := exists_run delim s.reverse
  have hback : s = t.reverse ++ es.reverse := by
    rw [← List.reverse_append, ← hsplit, List.reverse_reverse]
  subst hback
  by_cases hne : t = []
  · subst hne
    have hall : ∀ a ∈ ds ++ ([].reverse ++ es.reverse), delim a = true := by
      intro a ha
      rcases List.mem_append.mp ha with ha | ha
      · exact hds a ha
      · exact hes a (by simpa using ha)
    exact ⟨[], .blank hall⟩
  · refine ⟨t.reverse, .text hds ⟨?_, ?_⟩ (by simpa using hne) (by simpa using hes)⟩
    · intro a ha
      exact hs a (by rw [List.head?_append, Option.mem_def.mp ha]; rfl)
    · simpa using ht

theorem Trimmed.tight (h : Trimmed delim s t) : Tight delim t := by
  cases h with
  | blank hds => exact tight_nil
  | text hds ht hne hes => exact ht

/-- What is around it; a text of delimiters alone counts as before it. -/
theorem Trimmed.split (h : Trimmed delim s t) : ∃ ds es, s = ds ++ (t ++ es) ∧
    (∀ a ∈ ds, delim a = true) ∧ (∀ a ∈ es, delim a = true) ∧ (t = [] → es = []) := by
  cases h with
  | blank hds => exact ⟨s, [], by simp, hds, by simp, fun _ => rfl⟩
  | @text ds _ es hds ht hne hes => exact ⟨ds, es, rfl, hds, hes, fun h => absurd h hne⟩

theorem Trimmed.within (h : Trimmed delim s t) : t <:+: s := by
  cases h with
  | blank hds => exact List.nil_infix
  | @text ds _ es hds ht hne hes => exact ⟨ds, es, List.append_assoc ds t es⟩

/-- A tight text within another begins behind its first delimiters. -/
theorem Tight.behind (hu : Tight delim u) (hne : u ≠ []) (hds : ∀ a ∈ ds, delim a = true)
    {p q : List α} (h : ds ++ s = p ++ (u ++ q)) : ∃ p', s = p' ++ (u ++ q) := by
  rcases List.append_eq_append_iff.mp h with ⟨p', rfl, hs⟩ | ⟨c, rfl, hs⟩
  · exact ⟨p', hs⟩
  · cases c with
    | nil => exact ⟨[], hs.symm⟩
    | cons a c =>
        obtain ⟨b, u, rfl⟩ := List.exists_cons_of_ne_nil hne
        obtain rfl : b = a := (List.cons.inj hs).1
        have hdelim := hds b (by simp)
        rw [hu.head b rfl] at hdelim
        cases hdelim

theorem Tight.reverse (hu : Tight delim u) : Tight delim u.reverse :=
  ⟨by simpa using hu.last, by simpa using hu.head⟩

/-- What is left is the longest tight text within. -/
theorem Trimmed.longest (h : Trimmed delim s t) (hu : Tight delim u) (hin : u <:+: s) :
    u <:+: t := by
  by_cases hne : u = []
  · rw [hne]
    exact List.nil_infix
  obtain ⟨p, q, hs⟩ := hin
  rw [List.append_assoc] at hs
  cases h with
  | blank hds =>
      obtain ⟨a, u, rfl⟩ := List.exists_cons_of_ne_nil hne
      have hdelim := hds a (by rw [← hs]; simp)
      rw [hu.head a rfl] at hdelim
      cases hdelim
  | @text ds _ es hds ht _ hes =>
      obtain ⟨p', hmid⟩ := hu.behind hne hds hs.symm
      have hback : es.reverse ++ t.reverse = q.reverse ++ (u.reverse ++ p'.reverse) := by
        have hrev := congrArg List.reverse hmid
        simpa using hrev
      obtain ⟨q', hq⟩ := hu.reverse.behind (by simpa using hne) (by simpa using hes) hback
      refine ⟨p', q'.reverse, ?_⟩
      have hrev := congrArg List.reverse hq
      simpa using hrev.symm

theorem Trimmed.append_delims (h : Trimmed delim s t) (hes : ∀ a ∈ es, delim a = true) :
    Trimmed delim (s ++ es) t := by
  cases h with
  | blank hds => exact .blank (List.forall_mem_append.mpr ⟨hds, hes⟩)
  | @text ds _ es' hds ht hne hes' =>
      have h := Trimmed.text hds ht hne (List.forall_mem_append.mpr ⟨hes', hes⟩)
      simpa only [List.append_assoc] using h

/-- A text with more tight text behind it is not trimmed to its own longest one. -/
theorem Trimmed.delims_behind (h : Trimmed delim s t) {q : List α}
    (hmax : ∀ u, Tight delim u → u <:+: s ++ q → u <:+: t) : ∀ a ∈ q, delim a = true := by
  intro a ha
  by_contra hdelim
  have ha' : delim a = false := by simpa using hdelim
  obtain ⟨q₁, q₂, rfl⟩ := List.append_of_mem ha
  cases h with
  | blank hds =>
      have hone : Tight delim [a] := ⟨by simpa using ha', by simpa using ha'⟩
      have hin := hmax [a] hone ⟨s ++ q₁, q₂, by simp⟩
      simp at hin
  | @text ds _ es hds ht hne hes =>
      have hlong : Tight delim (t ++ (es ++ (q₁ ++ [a]))) := by
        constructor
        · intro b hb
          rw [List.head?_append_of_ne_nil t hne] at hb
          exact ht.head b hb
        · intro b hb
          simp only [← List.append_assoc, List.getLast?_concat, Option.mem_def,
            Option.some.injEq] at hb
          rw [← hb, ha']
      have hin := hmax _ hlong ⟨ds, q₂, by simp⟩
      have hlen := hin.length_le
      simp only [List.length_append, List.length_singleton] at hlen
      omega

/-- The text without the delimiters on both sides. -/
theorem Trimmed.dropWhile (h : Trimmed delim s t) :
    (s.dropWhile delim).rdropWhile delim = t := by
  cases h with
  | blank hds => rw [List.dropWhile_eq_nil_iff.mpr hds, List.rdropWhile_nil]
  | @text ds _ es hds ht hne hes =>
      obtain ⟨l, b, rfl⟩ := (List.eq_nil_or_concat' t).resolve_left hne
      have hb : ¬ delim b = true := by simp [ht.last b (by simp)]
      have hfront : (l ++ [b] ++ es).dropWhile delim = l ++ [b] ++ es := by
        obtain ⟨a, l', hcons⟩ := List.exists_cons_of_ne_nil hne
        have ha : ¬ delim a = true := by simp [ht.head a (by simp [hcons])]
        rw [hcons, List.cons_append, List.dropWhile_cons_of_neg ha]
      have hback : (l ++ [b] ++ es).rdropWhile delim = l ++ [b] := by
        rw [List.rdropWhile, List.reverse_append,
          List.dropWhile_append_of_pos (by simpa using hes), ← List.rdropWhile,
          List.rdropWhile_concat_neg _ _ _ hb]
      rw [List.dropWhile_append_of_pos hds, hfront, hback]

end Trimming

section Numbers

/-- The string a buffer holds. -/
def cstr (bs : List UInt8) : List UInt8 := bs.takeWhile (· != 0)

/-- NULs behind a string change nothing. -/
theorem cstr_append_replicate (bs : List UInt8) (n : Nat) :
    cstr (bs ++ List.replicate n 0) = cstr bs := by
  induction bs with
  | nil => simp [cstr]
  | cons b bs ih =>
      by_cases hb : b = 0
      · simp [cstr, hb]
      · have hne : (b != 0) = true := by simpa using hb
        have hcons : ∀ l, cstr (b :: l) = b :: cstr l := fun l =>
          List.takeWhile_cons_of_pos hne
        rw [List.cons_append, hcons, hcons, ih]

theorem not_mem_cstr (bs : List UInt8) : 0 ∉ cstr bs := by
  intro hmem
  have h := List.mem_takeWhile_imp hmem
  cases h

theorem cstr_of_not_mem {bs : List UInt8} (h : 0 ∉ bs) : cstr bs = bs := by
  refine List.takeWhile_eq_self_iff.mpr fun b hb => ?_
  simp only [bne_iff_ne]
  rintro rfl
  exact h hb

theorem cstr_append_zero {bs : List UInt8} (h : 0 ∉ bs) (rest : List UInt8) :
    cstr (bs ++ 0 :: rest) = bs := by
  have hbs : ∀ b ∈ bs, (b != 0) = true := by
    intro b hb
    simp only [bne_iff_ne]
    rintro rfl
    exact h hb
  rw [cstr, List.takeWhile_append_of_pos hbs]
  simp

/-- A text as the bytes of its characters. -/
def ascii (s : String) : List UInt8 := s.toList.map Char.toUInt8

/-- `isspace` in the C locale. -/
def isspace (b : UInt8) : Bool :=
  b = 32 || (9 ≤ b && b ≤ 13)

def isdigit (b : UInt8) : Bool := 48 ≤ b && b ≤ 57

/-- The value of a run of digits. -/
def digitsValue (ds : List UInt8) : Nat :=
  Nat.ofDigitChars 10 (ds.map fun b => Char.ofNat b.toNat) 0

def leadingValue (s : List UInt8) : Int := digitsValue (s.takeWhile isdigit)

/-- `strtol(s, NULL, 10)`: white space, a sign, and the digits behind it; a value
that is too large is clamped. -/
def strtol (s : List UInt8) : Int :=
  match s.dropWhile isspace with
  | 45 :: s => max (-2 ^ 63) (-leadingValue s)
  | 43 :: s => min (2 ^ 63 - 1) (leadingValue s)
  | s => min (2 ^ 63 - 1) (leadingValue s)

/-- `atoi`, the low bits of `strtol`. -/
def atoi (s : List UInt8) : Int := (strtol s).bmod (2 ^ 32)

/-- `printf("%d", n)` for a number that is not negative. -/
def decimal (n : Nat) : List UInt8 := (Nat.toDigits 10 n).map Char.toUInt8

theorem toNat_toUInt8 {c : Char} (hc : c.isDigit = true) : c.toUInt8.toNat = c.toNat := by
  have hle : c.val.toNat ≤ 57 := by
    simp only [Char.isDigit, Bool.and_eq_true, decide_eq_true_eq] at hc
    exact UInt32.le_iff_toNat_le.mp hc.2
  change c.val.toNat % 256 = c.val.toNat
  omega

theorem isdigit_toUInt8 {c : Char} (hc : c.isDigit = true) :
    isdigit c.toUInt8 = true := by
  have hval : c.toUInt8.toNat = c.val.toNat := toNat_toUInt8 hc
  simp only [Char.isDigit, Bool.and_eq_true, decide_eq_true_eq] at hc
  have hge : 48 ≤ c.val.toNat := UInt32.le_iff_toNat_le.mp hc.1
  have hle : c.val.toNat ≤ 57 := UInt32.le_iff_toNat_le.mp hc.2
  simp only [isdigit, Bool.and_eq_true, decide_eq_true_eq, UInt8.le_iff_toNat_le, hval]
  exact ⟨hge, hle⟩

theorem isdigit_of_mem_decimal {n : Nat} {b : UInt8} (hb : b ∈ decimal n) :
    isdigit b = true := by
  obtain ⟨c, hc, rfl⟩ := List.mem_map.mp hb
  exact isdigit_toUInt8 (Nat.isDigit_of_mem_toDigits (by decide) (by decide) hc)

theorem decimal_ne_nil (n : Nat) : decimal n ≠ [] := by
  simp [decimal, Nat.toDigits_ne_nil]

theorem digitsValue_decimal (n : Nat) : digitsValue (decimal n) = n := by
  have hback : (decimal n).map (fun b => Char.ofNat b.toNat) = Nat.toDigits 10 n := by
    rw [decimal, List.map_map]
    refine (List.map_congr_left fun c hc => ?_).trans (List.map_id _)
    have hdigit := Nat.isDigit_of_mem_toDigits (by decide) (by decide) hc
    rw [Function.comp_apply, toNat_toUInt8 hdigit, Char.ofNat_toNat, id_eq]
  rw [digitsValue, hback, Nat.ofDigitChars_ten_toDigits]

theorem isspace_of_isdigit {b : UInt8} (hb : isdigit b = true) : isspace b = false := by
  simp only [isdigit, Bool.and_eq_true, decide_eq_true_eq, UInt8.le_iff_toNat_le] at hb
  obtain ⟨hge, _⟩ := hb
  have hge : 48 ≤ b.toNat := hge
  have hne : b ≠ 32 := fun h => by simp [h] at hge
  have hgt : ¬ b ≤ 13 := fun h => by
    have hle : b.toNat ≤ 13 := UInt8.le_iff_toNat_le.mp h
    omega
  simp [isspace, hne, hgt]

/-- `strtol` on a text that begins with a digit. -/
theorem strtol_digits {ds rest : List UInt8} (hds : ∀ b ∈ ds, isdigit b = true)
    (hne : ds ≠ []) (hrest : ∀ b ∈ rest.head?, isdigit b = false)
    (hsmall : digitsValue ds < 2 ^ 63) :
    strtol (ds ++ rest) = digitsValue ds := by
  obtain ⟨d, ds, rfl⟩ := List.exists_cons_of_ne_nil hne
  have hd : isdigit d = true := hds d List.mem_cons_self
  have hspace : ¬ isspace d = true := by simp [isspace_of_isdigit hd]
  have hminus : d ≠ 45 := by rintro rfl; cases hd
  have hplus : d ≠ 43 := by rintro rfl; cases hd
  have hrun : leadingValue (d :: ds ++ rest) = digitsValue (d :: ds) := by
    rw [leadingValue, List.takeWhile_append_of_pos hds]
    cases rest with
    | nil => simp
    | cons b rest => simp [hrest b rfl]
  rw [strtol, List.cons_append, List.dropWhile_cons_of_neg hspace, ← List.cons_append]
  split
  · rename_i h
    cases h
    exact absurd rfl hminus
  · rename_i h
    cases h
    exact absurd rfl hplus
  · rw [hrun]
    omega

theorem atoi_digits {ds rest : List UInt8} (hds : ∀ b ∈ ds, isdigit b = true)
    (hne : ds ≠ []) (hrest : ∀ b ∈ rest.head?, isdigit b = false)
    (hsmall : digitsValue ds < 2 ^ 31) : atoi (ds ++ rest) = digitsValue ds := by
  rw [atoi, strtol_digits hds hne hrest (by omega)]
  exact Int.bmod_eq_of_le_mul_two (by omega) (by omega)

/-- What is printed is read back. -/
theorem atoi_decimal {n : Nat} (hn : n < 2 ^ 31) : atoi (decimal n) = n := by
  have h := @atoi_digits (decimal n) [] (fun _ => isdigit_of_mem_decimal)
    (decimal_ne_nil n) (by simp) (by rwa [digitsValue_decimal])
  rwa [List.append_nil, digitsValue_decimal] at h

end Numbers

end CStrings
