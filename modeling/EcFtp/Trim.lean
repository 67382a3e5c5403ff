/-
`trim` on the bytes of its buffer: two indexes run towards each other, the text
between them is moved to the front, and a NUL is put behind it.  An index outside 0
to `strlen` has no meaning here.
-/
import EcFtp.CommandLine

namespace EcFtp

open CStrings

/-- The conversion of a `strlen` to `int`. -/
def toInt32 (n : Nat) : Int := (n : Int).bmod (2 ^ 32)

theorem toInt32_of_lt {n : Nat} (hn : n < 2 ^ 31) : toInt32 n = n :=
  Int.bmod_eq_of_le_mul_two (by omega) (by omega)

section Loops

variable (strlen : Nat)

/-- `str[i]`. -/
def charAt (str : Bytes) (i : Int) : Option UInt8 :=
  if 0 ≤ i ∧ i ≤ strlen then str[i.toNat]? else none

/-- `str[i] = b`. -/
def setCharAt (str : Bytes) (i : Int) (b : UInt8) : Option Bytes :=
  if 0 ≤ i ∧ i ≤ strlen then some (str.set i.toNat b) else none

/-- `while ((begin < len) && isspace((unsigned char) str[begin]))`, with a bound on
the rounds. -/
def skipFront (str : Bytes) (len : Int) : Nat → Int → Option Int
  | 0, _ => none
  | fuel + 1, begin =>
      if begin < len then do
        let b ← charAt strlen str begin
        if isspace b then skipFront str len fuel (begin + 1) else pure begin
      else pure begin

/-- `while ((end >= begin) && isspace((unsigned char) str[end]))`. -/
def skipBack (str : Bytes) (begin : Int) : Nat → Int → Option Int
  | 0, _ => none
  | fuel + 1, stop =>
      if begin ≤ stop then do
        let b ← charAt strlen str stop
        if isspace b then skipBack str begin fuel (stop - 1) else pure stop
      else pure stop

/-- `for (i = begin; i <= end; i++) str[i - begin] = str[i];` -/
def shift (begin stop : Int) : Nat → Int → Bytes → Option (Int × Bytes)
  | 0, _, _ => none
  | fuel + 1, i, str =>
      if i ≤ stop then do
        let b ← charAt strlen str i
        let str ← setCharAt strlen str (i - begin) b
        shift begin stop fuel (i + 1) str
      else pure (i, str)

end Loops

/-- The loops of `trim`, and the NUL behind them. -/
def trimLoops (strlen : Nat) (len : Int) (str : Bytes) : Option Bytes := do
  let begin ← skipFront strlen str len (strlen + 1) 0
  let stop ← skipBack strlen str begin (strlen + 1) (len - 1)
  let (i, str) ← shift strlen begin stop (strlen + 1) begin str
  setCharAt strlen str (i - begin) 0

/-- `trim`, in place.  `len - 1` has to be an `int`. -/
def trimBuffer (str : Bytes) : Option Bytes :=
  (stringIn str).bind fun s =>
    if toInt32 s.length = -2 ^ 31 then none else trimLoops s.length (toInt32 s.length) str

section Rounds

variable {strlen len fuel : Nat} {pre ds es post todo rest : Bytes} {b : UInt8}

theorem charAt_append (hle : pre.length ≤ strlen) :
    charAt strlen (pre ++ b :: rest) pre.length = some b := by
  rw [charAt, if_pos (by omega), Int.toNat_natCast,
    List.getElem?_append_right (Nat.le_refl _), Nat.sub_self]
  rfl

theorem setCharAt_append (hle : pre.length ≤ strlen) (c : UInt8) :
    setCharAt strlen (pre ++ b :: rest) pre.length c = some (pre ++ c :: rest) := by
  rw [setCharAt, if_pos (by omega), Int.toNat_natCast,
    List.set_append_right _ _ (Nat.le_refl _), Nat.sub_self]
  rfl

/-- White space is skipped up to `len`, or up to something else. -/
theorem skipFront_eq (hds : ∀ a ∈ ds, isspace a = true) (hfuel : ds.length < fuel)
    (hle : pre.length + ds.length ≤ len) (hlen : len ≤ strlen)
    (hstop : pre.length + ds.length = len ∨ ∃ b l, rest = b :: l ∧ isspace b = false) :
    skipFront strlen (pre ++ (ds ++ rest)) len fuel pre.length =
      some ((pre ++ ds).length : Int) := by
  induction ds generalizing pre fuel with
  | nil =>
      obtain ⟨fuel, rfl⟩ := Nat.exists_eq_succ_of_ne_zero (by omega : fuel ≠ 0)
      rw [List.append_nil, List.nil_append, skipFront]
      rcases hstop with hend | ⟨b, l, rfl, hb⟩
      · rw [if_neg (by simp at hend; omega)]
        rfl
      · split
        · rw [charAt_append (by simp at hle; omega)]
          simp [hb]
        · rfl
  | cons d ds ih =>
      obtain ⟨fuel, rfl⟩ := Nat.exists_eq_succ_of_ne_zero (by omega : fuel ≠ 0)
      rw [List.length_cons] at hfuel hle hstop
      have hd : isspace d = true := hds d List.mem_cons_self
      have hnext := @ih fuel (pre ++ [d]) (fun a ha => hds a (List.mem_cons_of_mem d ha))
        (by omega) (by simp; omega) (by simpa [Nat.add_assoc, Nat.add_comm 1] using hstop)
      rw [List.append_assoc, List.append_assoc, List.singleton_append,
        List.singleton_append]
        at hnext
      rw [List.length_append, List.length_singleton, Int.natCast_add,
        Int.natCast_one] at hnext
      rw [skipFront, if_pos (by omega), List.cons_append, charAt_append (by omega)]
      simpa [hd] using hnext

/-- White space is skipped back to `begin`, or to something else. -/
theorem skipBack_eq {begin : Nat} (hes : ∀ a ∈ es, isspace a = true)
    (hfuel : es.length < fuel)
    (hle : begin ≤ pre.length) (hlen : (pre ++ es).length ≤ strlen)
    (hstop : pre.length = begin ∨ ∃ l b, pre = l ++ [b] ∧ isspace b = false) :
    skipBack strlen (pre ++ (es ++ post)) begin fuel ((pre ++ es).length - 1) =
      some ((pre.length : Int) - 1) := by
  induction es using List.reverseRecOn generalizing post fuel with
  | nil =>
      obtain ⟨fuel, rfl⟩ := Nat.exists_eq_succ_of_ne_zero (by omega : fuel ≠ 0)
      rw [List.append_nil, List.nil_append, skipBack]
      rw [List.append_nil] at hlen
      rcases hstop with hbegin | ⟨l, b, rfl, hb⟩
      · rw [if_neg (by omega)]
        rfl
      · rw [List.length_append, List.length_singleton] at hlen ⊢
        have hindex : ((l.length + 1 : Nat) : Int) - 1 = l.length := by omega
        rw [hindex, List.append_assoc, List.singleton_append]
        split
        · rw [charAt_append (by omega)]
          simp [hb]
        · rfl
  | append_singleton es e ih =>
      obtain ⟨fuel, rfl⟩ := Nat.exists_eq_succ_of_ne_zero (by omega : fuel ≠ 0)
      have he : isspace e = true := hes e (by simp)
      have hnext := @ih fuel (e :: post) (fun a ha => hes a (by simp [ha]))
        (by simp at hfuel; omega) (by simp at hlen ⊢; omega)
      have hindex : ((pre ++ (es ++ [e])).length : Int) - 1 = (pre ++ es).length := by
        simp
        omega
      have hsplit : pre ++ (es ++ [e] ++ post) = (pre ++ es) ++ e :: post := by simp
      rw [← List.append_assoc pre es] at hnext
      have hfits : (pre ++ es).length ≤ strlen := by
        simp at hlen ⊢
        omega
      rw [skipBack, hindex, hsplit, if_pos (by simp; omega), charAt_append hfits]
      simpa [he] using hnext

/-- The cells before the one written to hold the text, those behind it what they
held. -/
theorem shift_eq {str : Bytes} {done : Bytes} (hstr : str = ds ++ (done ++ todo) ++ post)
    (hfuel : todo.length < fuel) (hlen : (ds ++ (done ++ todo)).length ≤ strlen) :
    shift strlen ds.length ((ds ++ (done ++ todo)).length - 1) fuel (ds ++ done).length
        (done ++ str.drop done.length) =
      some (((ds ++ (done ++ todo)).length : Int),
        (done ++ todo) ++ str.drop (done ++ todo).length) := by
  induction todo generalizing done fuel with
  | nil =>
      obtain ⟨fuel, rfl⟩ := Nat.exists_eq_succ_of_ne_zero (by omega : fuel ≠ 0)
      rw [List.append_nil, shift, if_neg (by omega)]
      rfl
  | cons c todo ih =>
      obtain ⟨fuel, rfl⟩ := Nat.exists_eq_succ_of_ne_zero (by omega : fuel ≠ 0)
      have hlength : (ds ++ (done ++ c :: todo)).length =
          ds.length + done.length + todo.length + 1 := by
        simp only [List.length_append, List.length_cons]
        omega
      have hcell : str[done.length + ds.length]? = some c := by
        rw [hstr, Nat.add_comm, List.append_assoc, List.append_assoc,
          List.getElem?_append_right
          (by omega), Nat.add_sub_cancel_left, List.getElem?_append_right (Nat.le_refl _),
          Nat.sub_self]
        rfl
      have hread :
          charAt strlen (done ++ str.drop done.length) (ds ++ done).length = some c := by
        rw [List.length_append, charAt, if_pos (by omega), Int.toNat_natCast,
          List.getElem?_append_right (by omega), List.getElem?_drop]
        rw [Nat.add_sub_cancel, hcell]
      have hlt : done.length < str.length := by
        have hlast := (List.getElem?_eq_some_iff.mp hcell).1
        omega
      have hwrite : setCharAt strlen (done ++ str.drop done.length)
          ((ds ++ done).length - ds.length) c =
            some ((done ++ [c]) ++ str.drop (done ++ [c]).length) := by
        have hindex : (((ds ++ done).length : Nat) : Int) - ds.length = done.length := by
          simp
        rw [hindex, List.drop_eq_getElem_cons hlt, setCharAt_append (by omega),
          List.append_assoc, List.length_append]
        rfl
      have hnext := @ih fuel (done ++ [c]) (by simpa using hstr) (by simp at hfuel; omega)
        (by simpa using hlen)
      rw [shift, if_pos (by rw [List.length_append]; omega), hread]
      simp only [Option.bind_eq_bind, Option.bind_some, hwrite]
      simpa [Int.add_assoc] using hnext

theorem trimLoops_eq {len begin stop i : Int} {str moved : Bytes}
    (hfront : skipFront strlen str len (strlen + 1) 0 = some begin)
    (hback : skipBack strlen str begin (strlen + 1) (len - 1) = some stop)
    (hshift : shift strlen begin stop (strlen + 1) begin str = some (i, moved)) :
    trimLoops strlen len str = setCharAt strlen moved (i - begin) 0 := by
  simp only [trimLoops, hfront, hback, hshift, Option.bind_eq_bind, Option.bind_some]

end Rounds

section Exact

variable {s t rest : Bytes} {k : Nat}

theorem stringIn_append_zero (hnul : 0 ∉ s) (rest : Bytes) :
    stringIn (s ++ 0 :: rest) = some s := by
  rw [stringIn, if_pos (by simp), cstr_append_zero hnul]

theorem trimBuffer_loops (hnul : 0 ∉ s) (hmin : toInt32 s.length ≠ -2 ^ 31)
    (rest : Bytes) :
    trimBuffer (s ++ 0 :: rest) =
      trimLoops s.length (toInt32 s.length) (s ++ 0 :: rest) := by
  rw [trimBuffer, stringIn_append_zero hnul, Option.bind_some, if_neg hmin]

/-- The text that lies in the first `(int) strlen(s)` bytes is what the buffer holds
then. -/
theorem trimBuffer_eq (hnul : 0 ∉ s) (hlen : toInt32 s.length = k) (hk : k ≤ s.length)
    (ht : Trimmed isspace (s.take k) t) (rest : Bytes) : trimBuffer (s ++ 0 :: rest) =
      some (t ++ 0 :: (s ++ 0 :: rest).drop (t.length + 1)) := by
  obtain ⟨ds, es, hsplit, hds, hes, hempty⟩ := ht.split
  have hcount : ds.length + t.length + es.length = k := by
    have htake := congrArg List.length hsplit
    simp only [List.length_append, List.length_take, Nat.min_eq_left hk] at htake
    omega
  obtain ⟨post, hbuf⟩ : ∃ post, s ++ 0 :: rest = ds ++ (t ++ (es ++ post)) := by
    refine ⟨s.drop k ++ 0 :: rest, ?_⟩
    have hs : s = ds ++ (t ++ es) ++ s.drop k := by rw [← hsplit, List.take_append_drop]
    conv_lhs => rw [hs]
    simp
  have hfront :
      skipFront s.length (s ++ 0 :: rest) k (s.length + 1) 0 =
        some (ds.length : Int) := by
    rw [hbuf]
    apply @skipFront_eq s.length k (s.length + 1) [] ds (t ++ (es ++ post)) hds
    · omega
    · simp
      omega
    · exact hk
    · by_cases hne : t = []
      · left
        simp [hne, hempty hne] at hcount ⊢
        exact hcount
      · obtain ⟨b, l, rfl⟩ := List.exists_cons_of_ne_nil hne
        exact .inr ⟨b, _, rfl, ht.tight.head b rfl⟩
  have hback : skipBack s.length (s ++ 0 :: rest) ds.length (s.length + 1) (k - 1) =
      some (((ds ++ t).length : Int) - 1) := by
    have hend : (k : Int) = ((ds ++ t) ++ es).length := by
      simp
      omega
    rw [hbuf, hend, ← List.append_assoc ds t]
    apply skipBack_eq hes
    · omega
    · simp
    · simp
      omega
    · by_cases hne : t = []
      · left
        simp [hne]
      · obtain ⟨l, b, rfl⟩ := (List.eq_nil_or_concat' t).resolve_left hne
        exact .inr ⟨ds ++ l, b, by simp, ht.tight.last b (by simp)⟩
  have hshift := @shift_eq s.length (s.length + 1) ds (es ++ post) t (s ++ 0 :: rest) []
    (by rw [hbuf]; simp) (by omega) (by simp; omega)
  simp only [List.nil_append, List.append_nil, List.length_nil, List.drop_zero] at hshift
  have hlt : t.length < (s ++ 0 :: rest).length := by
    simp
    omega
  have hclose : setCharAt s.length (t ++ (s ++ 0 :: rest).drop t.length)
      ((ds ++ t).length - ds.length) 0 =
        some (t ++ 0 :: (s ++ 0 :: rest).drop (t.length + 1)) := by
    have hindex : (((ds ++ t).length : Nat) : Int) - ds.length = t.length := by simp
    rw [hindex, List.drop_eq_getElem_cons hlt, setCharAt_append (by omega)]
  rw [trimBuffer_loops hnul (by omega), hlen, trimLoops_eq hfront hback hshift, hclose]

/-- Nothing is skipped or shifted where the length counts as negative. -/
theorem trimBuffer_neg (hnul : 0 ∉ s) (hlen : toInt32 s.length < 0)
    (hmin : toInt32 s.length ≠ -2 ^ 31) (rest : Bytes) : trimBuffer (s ++ 0 :: rest) =
      some (0 :: (s ++ 0 :: rest).drop 1) := by
  have hne : s ≠ [] := by
    rintro rfl
    rw [List.length_nil, toInt32_of_lt (by omega)] at hlen
    omega
  obtain ⟨a, s, rfl⟩ := List.exists_cons_of_ne_nil hne
  have hfront : skipFront (a :: s).length (a :: s ++ 0 :: rest) (toInt32 (a :: s).length)
      ((a :: s).length + 1) 0 = some 0 := by
    rw [skipFront, if_neg (by omega)]
    rfl
  have hback : skipBack (a :: s).length (a :: s ++ 0 :: rest) 0 ((a :: s).length + 1)
      (toInt32 (a :: s).length - 1) = some (toInt32 (a :: s).length - 1) := by
    rw [skipBack, if_neg (by omega)]
    rfl
  have hshift :
      shift (a :: s).length 0 (toInt32 (a :: s).length - 1) ((a :: s).length + 1) 0
      (a :: s ++ 0 :: rest) = some (0, a :: s ++ 0 :: rest) := by
    rw [shift, if_neg (by omega)]
    rfl
  rw [trimBuffer_loops hnul hmin, trimLoops_eq hfront hback hshift]
  exact @setCharAt_append (a :: s).length [] (s ++ 0 :: rest) a (Nat.zero_le _) 0

theorem toInt32_le (n : Nat) : toInt32 n ≤ n := by
  unfold toInt32
  rw [Int.bmod_def]
  split
  · omega
  · omega

theorem toInt32_lt (n : Nat) : toInt32 n < 2 ^ 31 := by
  have hlt := @Int.bmod_lt (n : Int) (2 ^ 32) (by omega)
  unfold toInt32
  omega

/-- What is trimmed is the text that the length as an `int` leaves. -/
theorem exists_trimBuffer (hnul : 0 ∉ s) (hmin : toInt32 s.length ≠ -2 ^ 31)
    (rest : Bytes) :
    ∃ t, Trimmed isspace (s.take (toInt32 s.length).toNat) t ∧
      trimBuffer (s ++ 0 :: rest) =
        some (t ++ 0 :: (s ++ 0 :: rest).drop (t.length + 1)) := by
  by_cases hneg : toInt32 s.length < 0
  · have hnone : (toInt32 s.length).toNat = 0 := by omega
    rw [hnone, List.take_zero, trimBuffer_neg hnul hneg hmin]
    exact ⟨[], .blank (by simp), rfl⟩
  · obtain ⟨t, ht⟩ := exists_trimmed isspace (s.take (toInt32 s.length).toNat)
    have hle := toInt32_le s.length
    exact ⟨t, ht, trimBuffer_eq hnul (by omega) (by omega) ht rest⟩

/-- What `trim` is to leave of the string `s`, with `rest` behind it: the longest text
within that neither begins nor ends with white space. -/
structure TrimsTo (s rest buf : Bytes) : Prop where
  text : ∃ t, stringIn buf = some t ∧ Tight isspace t ∧ t <:+: s ∧
    ∀ u, Tight isspace u → u <:+: s → u <:+: t
  behind : ∃ cells, cells.length = s.length + 1 ∧ buf = cells ++ rest
  again : trimBuffer buf = some buf

theorem not_mem_of_infix (ht : t <:+: s) (hnul : 0 ∉ s) : 0 ∉ t :=
  fun hmem => hnul (ht.mem hmem)

theorem trimsTo (hnul : 0 ∉ s) (ht : Trimmed isspace s t) (hlen : t.length < 2 ^ 31)
    (rest : Bytes) : TrimsTo s rest (t ++ 0 :: (s ++ 0 :: rest).drop (t.length + 1)) := by
  have hnul' : 0 ∉ t := not_mem_of_infix ht.within hnul
  refine ⟨⟨t, stringIn_append_zero hnul' _, ht.tight, ht.within, fun u => ht.longest⟩, ?_,
    ?_⟩
  · have hle := ht.within.length_le
    refine ⟨t ++ 0 :: (s ++ [0]).drop (t.length + 1), ?_, ?_⟩
    · simp
      omega
    · have hsplit : s ++ 0 :: rest = (s ++ [0]) ++ rest := by simp
      rw [hsplit, List.drop_append_of_le_length (by simp; omega)]
      simp
  · have hself : Trimmed isspace (t.take t.length) t := by
      rw [List.take_length]
      by_cases hne : t = []
      · subst hne
        exact .blank (by simp)
      · have h := @Trimmed.text _ isspace [] t [] (by simp) ht.tight hne (by simp)
        simpa using h
    rw [trimBuffer_eq hnul' (toInt32_of_lt hlen) (Nat.le_refl _) hself]
    simp

/-- What is trimmed away behind the length has to be white space. -/
theorem TrimsTo.white_behind {buf : Bytes} (hnul : 0 ∉ s)
    (htrim : trimBuffer (s ++ 0 :: rest) = some buf) (h : TrimsTo s rest buf) :
    toInt32 s.length ≠ -2 ^ 31 ∧
      ∀ b ∈ s.drop (toInt32 s.length).toNat, isspace b = true := by
  have hmin : toInt32 s.length ≠ -2 ^ 31 := by
    intro hmin
    rw [trimBuffer, stringIn_append_zero hnul, Option.bind_some, if_pos hmin] at htrim
    cases htrim
  obtain ⟨t, ht, heq⟩ := exists_trimBuffer hnul hmin rest
  obtain rfl : t ++ 0 :: (s ++ 0 :: rest).drop (t.length + 1) = buf :=
    Option.some.inj (heq.symm.trans htrim)
  obtain ⟨t', hread, _, _, hmax⟩ := h.text
  have hnul' : 0 ∉ t :=
    not_mem_of_infix (ht.within.trans (List.take_prefix _ _).isInfix) hnul
  rw [stringIn_append_zero hnul'] at hread
  obtain rfl := Option.some.inj hread
  refine ⟨hmin, ht.delims_behind fun u hu hin => hmax u hu ?_⟩
  rwa [List.take_append_drop] at hin

/-- `trim` does what it is to do exactly where the length is an `int`, or nothing but
white space is behind what is left of it as one. -/
theorem trimBuffer_trimsTo_iff (hnul : 0 ∉ s) (rest : Bytes) :
    (∃ buf, trimBuffer (s ++ 0 :: rest) = some buf ∧ TrimsTo s rest buf) ↔
      toInt32 s.length ≠ -2 ^ 31 ∧
        ∀ b ∈ s.drop (toInt32 s.length).toNat, isspace b = true := by
  constructor
  · rintro ⟨buf, htrim, h⟩
    exact h.white_behind hnul htrim
  · rintro ⟨hmin, hwhite⟩
    obtain ⟨t, ht, heq⟩ := exists_trimBuffer hnul hmin rest
    have hall := ht.append_delims hwhite
    rw [List.take_append_drop] at hall
    have hlen := ht.within.length_le
    have hsmall := toInt32_lt s.length
    have htake := List.length_take_le (toInt32 s.length).toNat s
    exact ⟨_, heq, trimsTo hnul hall (by omega) rest⟩

/-- At a text with white space around it and in it. -/
theorem trimBuffer_trimsTo_line :
    (∃ buf, trimBuffer ([32, 97, 32, 98, 10] ++ 0 :: [7]) = some buf ∧
        TrimsTo [32, 97, 32, 98, 10] [7] buf) ↔
      toInt32 5 ≠ -2 ^ 31 ∧
        ∀ b ∈ ([32, 97, 32, 98, 10] : Bytes).drop (toInt32 5).toNat, isspace b = true :=
  trimBuffer_trimsTo_iff (by decide) [7]

/-- A text whose length is not an `int`. -/
def longText : Bytes := List.replicate (2 ^ 31 + 1) 97

theorem toInt32_longText : toInt32 longText.length = -2 ^ 31 + 1 := by
  rw [longText, List.length_replicate]
  unfold toInt32
  rw [Int.bmod_def]
  split
  · omega
  · omega

theorem zero_not_mem_longText : 0 ∉ longText := by
  intro hmem
  have heq := List.eq_of_mem_replicate hmem
  cases heq

/-- Its length counts as negative, and nothing is left of it. -/
theorem trimBuffer_longText :
    trimBuffer (longText ++ [0]) = some (0 :: (longText ++ [0]).drop 1) ∧
      ¬ ∃ buf, trimBuffer (longText ++ [0]) = some buf ∧ TrimsTo longText [] buf := by
  have hlen := toInt32_longText
  constructor
  · exact trimBuffer_neg zero_not_mem_longText (by omega) (by omega) []
  · rintro ⟨buf, htrim, h⟩
    have hwhite := (h.white_behind zero_not_mem_longText htrim).2
    have hnone : (toInt32 longText.length).toNat = 0 := by omega
    rw [hnone, List.drop_zero] at hwhite
    have hspace := hwhite 97 (List.mem_replicate.mpr ⟨by omega, rfl⟩)
    cases hspace

/-- Where the length is an `int`, the buffer holds what `trim` is modelled to leave of the
text. -/
theorem trimBuffer_trim (hnul : 0 ∉ s) (hlen : s.length < 2 ^ 31) (rest : Bytes) :
    trimBuffer (s ++ 0 :: rest) =
      some (trim s ++ 0 :: (s ++ 0 :: rest).drop ((trim s).length + 1)) := by
  obtain ⟨t, ht⟩ := exists_trimmed isspace s
  have hself : trim s = t := ht.dropWhile
  rw [hself]
  exact trimBuffer_eq hnul (toInt32_of_lt hlen) (Nat.le_refl _)
    (by rwa [List.take_length]) rest

end Exact

end EcFtp
