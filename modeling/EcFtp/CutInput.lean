/-
Files that were cut off, and files that were put together.  The records of a beginning of
a container are the first ones of the container, and what was encrypted decrypts, as far
as it goes, to a beginning of what it was.
-/
import EcFtp.EncRoundTrip
import EcFtp.RecordDecoder
import EcFtp.WrittenRecords

namespace EcFtp

open ByteStrings Exec

section Parsing

variable {bs more rest : Bytes} {r : Record} {k : Nat}

theorem parseHeader_append (h : ecHeaderSize ≤ bs.length) :
    parseHeader (bs ++ more) = parseHeader bs := by
  unfold ecHeaderSize at h
  rw [parseHeader, parseHeader, slice_append_left (by omega),
    slice_append_left (by omega), slice_append_left (by omega)]

theorem record_ext {r r' : Record} (hheader : r.header = r'.header)
    (hprops : r.props = r'.props)
    (hdata : r.data = r'.data) : r = r' := by
  cases r
  cases r'
  cases hheader
  cases hprops
  cases hdata
  rfl

/-- A record does not depend on what is behind it. -/
theorem parseRecord_append (h : parseRecord bs = some (r, rest)) :
    parseRecord (bs ++ more) = some (r, rest ++ more) := by
  obtain ⟨hfit, rfl, rfl⟩ := parseRecord_eq_some h
  have hheader := hfit.1
  have hbody := hfit.2
  have hsame := @parseHeader_append bs more hheader
  have hfit' : HoldsRecord (bs ++ more) := by
    refine ⟨?_, ?_⟩
    · rw [List.length_append]
      omega
    · rw [hsame, List.length_append]
      omega
  have hbodySize : (parseHeader bs).bodySize =
      (parseHeader bs).numPropsBytes + (parseHeader bs).procSize := rfl
  have hfirst : firstRecord (bs ++ more) hfit' = firstRecord bs hfit := by
    apply record_ext
    · rw [firstRecord_header, firstRecord_header, hsame]
    · rw [firstRecord_props, firstRecord_props, hsame, slice_append_left (by omega)]
    · rw [firstRecord_data, firstRecord_data, hsame, slice_append_left (by omega)]
  have hparse : parseRecord (bs ++ more) = some (firstRecord (bs ++ more) hfit',
      (bs ++ more).drop (ecHeaderSize + (parseHeader (bs ++ more)).bodySize)) :=
    dif_pos hfit'
  rw [hparse, hfirst, hsame, List.drop_append_of_le_length hbody]

theorem takeRecords_append (k : Nat) (bs more : Bytes) :
    takeRecords (takeRecords k bs).1.length (bs ++ more) =
      ((takeRecords k bs).1, (takeRecords k bs).2 ++ more) := by
  induction k generalizing bs with
  | zero => rfl
  | succ k ih =>
      cases hparse : parseRecord bs with
      | none =>
          rw [takeRecords_of_none hparse]
          rfl
      | some parsed =>
          obtain ⟨r, rest⟩ := parsed
          rw [takeRecords_succ hparse, List.length_cons,
            takeRecords_succ (parseRecord_append hparse), ih]

/-- The records of two files put together. -/
theorem records_append (bs more : Bytes) :
    records (bs ++ more) = ((records bs).1 ++ (records ((records bs).2 ++ more)).1,
      (records ((records bs).2 ++ more)).2) := by
  have hfirst := takeRecords_append bs.length bs more
  rw [records_takeRecords (takeRecords bs.length bs).1.length, hfirst]
  rfl

theorem records_begin (h : bs <+: more) : (records bs).1 <+: (records more).1 := by
  obtain ⟨tail, rfl⟩ := h
  rw [records_append]
  exact List.prefix_append _ _

theorem parseRecord_tail (bs : Bytes) : parseRecord (records bs).2 = none := by
  rw [← takeRecords_of_le (Nat.le_succ bs.length)]
  refine parseRecord_of_short ?_
  rw [takeRecords_of_le (Nat.le_succ bs.length)]
  exact Nat.lt_succ_of_le (length_takeRecords_le bs.length bs)

/-- What is left behind the records of a file is shorter than the record it begins. -/
theorem length_lt_of_tail {tail : Bytes} (htail : parseRecord tail = none)
    (h : parseRecord (tail ++ more) = some (r, rest)) : rest.length < more.length := by
  obtain ⟨⟨hheader, hbody⟩, rfl, rfl⟩ := parseRecord_eq_some h
  rw [parseRecord_eq_none, HoldsRecord] at htail
  rw [List.length_append] at hheader hbody
  rw [List.length_drop, List.length_append]
  by_cases hlong : ecHeaderSize ≤ tail.length
  · rw [parseHeader_append hlong] at hbody ⊢
    omega
  · omega

/-- A file is cut behind a record exactly when nothing is left behind its records. -/
theorem cut_iff (bs more : Bytes) :
    (records bs).2 = [] ↔ ∃ n, (takeRecords n (bs ++ more)).2 = more := by
  constructor
  · intro h
    have hfirst := takeRecords_append bs.length bs more
    have hnil : (takeRecords bs.length bs).2 = [] := h
    exact ⟨_, by rw [hfirst, hnil]; rfl⟩
  · rintro ⟨n, hn⟩
    have hall : takeRecords (records bs).1.length (bs ++ more) =
        ((records bs).1, (records bs).2 ++ more) := takeRecords_append bs.length bs more
    have hshort : ∀ k xs, (takeRecords k xs).2.length ≤ xs.length := fun k xs =>
      (takeRecords_suffix k xs).length_le
    have hlen : ((records bs).2 ++ more).length ≤ more.length → (records bs).2 = [] := by
      intro hle
      rw [List.length_append] at hle
      exact List.eq_nil_of_length_eq_zero (by omega)
    rcases Nat.le_total (records bs).1.length n with hle | hle
    · obtain ⟨j, rfl⟩ := Nat.exists_eq_add_of_le hle
      rw [takeRecords_add, hall] at hn
      dsimp only at hn
      cases j with
      | zero => exact hlen (Nat.le_of_eq (congrArg List.length hn))
      | succ j =>
          cases hparse : parseRecord ((records bs).2 ++ more) with
          | none =>
              rw [takeRecords_of_none hparse] at hn
              exact hlen (Nat.le_of_eq (congrArg List.length hn))
          | some parsed =>
              obtain ⟨r, rest⟩ := parsed
              rw [takeRecords_succ hparse] at hn
              have hlt := length_lt_of_tail (parseRecord_tail bs) hparse
              have hle := hshort j rest
              have hn : (takeRecords j rest).2 = more := hn
              rw [hn] at hle
              omega
    · obtain ⟨j, hj⟩ := Nat.exists_eq_add_of_le hle
      rw [hj, takeRecords_add, hn] at hall
      have htail : (takeRecords j more).2 = (records bs).2 ++ more :=
        congrArg Prod.snd hall
      exact hlen (htail ▸ hshort j more)

end Parsing

section Containers

variable {lzma : Lzma} {bs more : Bytes}

theorem writtenOf_usable (h : AllUsable lzma bs) :
    writtenOf lzma (records bs).1 = plainOf lzma bs :=
  writtenOf_of_wrote (writeAll_of_usable h.1)

theorem writtenOf_begins {rs rs' : List Record} (h : rs <+: rs') :
    writtenOf lzma rs <+: writtenOf lzma rs' := by
  obtain ⟨rest, rfl⟩ := h
  exact writtenOf_append_begins

/-- Whichever of the checked calls fail, the beginning of a container is uncompressed to a
beginning of what the container is. -/
theorem uncompFileOf_cut {c c' : FileData} {env : Env} {written : Bytes}
    (h : AllUsable lzma c.bytes) (hcut : c'.bytes <+: c.bytes)
    (hwritten : (finalState (uncompFileOf lzma env c')).MayHold written) :
    written <+: plainOf lzma c.bytes := by
  rw [← writtenOf_usable h]
  exact (uncompFileOf_written hwritten).trans (writtenOf_begins (records_begin hcut))

theorem allUsable_cut (h : AllUsable lzma more) (hcut : bs <+: more) :
    AllUsable lzma bs ↔ (records bs).2 = [] := by
  constructor
  · exact And.right
  · exact fun hnil => ⟨fun r hr => h.1 r ((records_begin hcut).subset hr), hnil⟩

theorem AllUsable.append (h : AllUsable lzma bs) (h' : AllUsable lzma more) :
    AllUsable lzma (bs ++ more) ∧
      plainOf lzma (bs ++ more) = plainOf lzma bs ++ plainOf lzma more := by
  have hrecords : records (bs ++ more) = ((records bs).1 ++ (records more).1, []) := by
    rw [records_append, h.2, List.nil_append, h'.2]
  refine ⟨?_, ?_⟩
  · rw [AllUsable, hrecords]
    exact ⟨List.forall_mem_append.mpr ⟨h.1, h'.1⟩, rfl⟩
  · rw [plainOf, hrecords, List.flatMap_append]
    rfl

end Containers

/-- A container that was cut off is accepted exactly where it was cut behind a record;
but wherever it was cut, and whichever of the checked calls fail, only a beginning of its
file can be written. -/
theorem uncompFile_cut (lzma : Lzma) (c c' : FileData) (husable : AllUsable lzma c.bytes)
    (hcut : c'.bytes <+: c.bytes) :
    (∀ env written, (finalState (uncompFileOf lzma env c')).MayHold written →
        written <+: plainOf lzma c.bytes) ∧
      ∀ env : ReliableEnv, exitCode (uncompFileOf lzma env.toEnv c') = some 0 ↔
        ∃ n, (takeRecords n c.bytes).2 = c.bytes.drop c'.size := by
  refine ⟨fun env written => uncompFileOf_cut husable hcut, fun env => ?_⟩
  obtain ⟨more, hmore⟩ := hcut
  have hdrop : c.bytes.drop c'.size = more := by
    rw [← hmore]
    exact List.drop_left
  rw [hdrop, ← hmore, ← cut_iff, ← allUsable_cut husable ⟨more, hmore⟩]
  constructor
  · exact fun h => (uncompFileOf_zero h).1
  · exact fun h => (uncompFileOf_reliable env h).1

/-- The container of `"a"`, and what is left of it after ten bytes. -/
def containerOfA : FileData := ⟨(rawRecord [97]).bytes, by decide⟩

def cutOfA : FileData := ⟨(rawRecord [97]).bytes.take 10, by decide⟩

theorem parse_containerOfA :
    parseRecord containerOfA.bytes = some (rawRecord [97], []) := by
  have hfits : (rawRecord [97]).header.Fits := by
    refine ⟨.inl rfl, ?_, ?_⟩ <;> decide
  have hparse := parseRecord_bytes hfits []
  rwa [List.append_nil] at hparse

theorem containerOfA_usable : AllUsable .storing containerOfA.bytes := by
  have hrecords : records containerOfA.bytes = ([rawRecord [97]], []) := by
    rw [← takeRecords_of_le (Nat.le_succ _), takeRecords_succ parse_containerOfA,
      takeRecords_of_none (parseRecord_eq_none.mpr (by decide))]
  rw [AllUsable, hrecords]
  have hdecodes : (rawRecord [97]).Decodes .storing [97] := .raw rfl rfl (by decide)
  exact ⟨List.forall_mem_singleton.mpr hdecodes.usable, rfl⟩

theorem uncompFile_cut_a :
    exitCode (uncompFileOf .storing inOrderEnv.toEnv cutOfA) ≠ some 0 := by
  intro hzero
  obtain ⟨_, haccepts⟩ := uncompFile_cut .storing containerOfA cutOfA containerOfA_usable
    ⟨_, List.take_append_drop _ _⟩
  obtain ⟨n, hn⟩ := (haccepts inOrderEnv).mp hzero
  have hlen : (containerOfA.bytes.drop cutOfA.size).length = 8 := by decide
  rw [← hn] at hlen
  cases n with
  | zero => exact absurd hlen (by decide)
  | succ n =>
      rw [takeRecords_succ parse_containerOfA,
        takeRecords_of_none (parseRecord_eq_none.mpr (by decide))] at hlen
      cases hlen

/-- The containers of two files, one behind the other, are a container of the two files,
one behind the other. -/
theorem uncompFile_append (lzma : Lzma) (hundoes : lzma.Undoes) (x y c : FileData)
    (hx : x.size / 64000000 + 1 < 2 ^ 32) (hy : y.size / 64000000 + 1 < 2 ^ 32)
    (env env' : Env) (hcodex : exitCode (compFileOf lzma env x) = some 0)
    (hcodey : exitCode (compFileOf lzma env' y) = some 0)
    (hc : c.bytes = (finalState (compFileOf lzma env x)).out ++
      (finalState (compFileOf lzma env' y)).out) (env'' : ReliableEnv) :
    exitCode (uncompFileOf lzma env''.toEnv c) = some 0 ∧
      (finalState (uncompFileOf lzma env''.toEnv c)).out = x.bytes ++ y.bytes := by
  have hcontainer : ∀ {x : FileData} {env : Env}, x.size / 64000000 + 1 < 2 ^ 32 →
      exitCode (compFileOf lzma env x) = some 0 →
        AllUsable lzma (finalState (compFileOf lzma env x)).out ∧
          plainOf lzma (finalState (compFileOf lzma env x)).out = x.bytes := by
    intro x env hfit hcode
    rcases compFileOf_zero hcode with ⟨hnb, hreads, hholds⟩ | ⟨hnb, _⟩
    · exact (hholds.describes hnb hreads).usable hundoes x.length_lt
    · exact absurd hnb (succ_mod_ne_zero hfit)
  obtain ⟨husablex, hplainx⟩ := hcontainer hx hcodex
  obtain ⟨husabley, hplainy⟩ := hcontainer hy hcodey
  obtain ⟨husable, hplain⟩ := husablex.append husabley
  rw [← hc, hplainx, hplainy] at hplain
  rw [← hc] at husable
  rw [← hplain]
  exact uncompFileOf_reliable env'' husable

theorem uncompFile_append_a : ∃ c : FileData,
    exitCode (uncompFileOf .storing inOrderEnv.toEnv c) = some 0 ∧
      (finalState (uncompFileOf .storing inOrderEnv.toEnv c)).out = [97, 97] := by
  obtain ⟨hcode, hholds⟩ := @compFileOf_reliable .storing fileOfA (storing_not_rejects _)
    inOrderEnv (by decide) (.inl (by decide))
  have hsize : containerSize .storing fileOfA.bytes = some 18 := by decide
  have hlen := Option.some.inj (hholds.mapM_storedSize.symm.trans hsize)
  have hbound : ((finalState (compFileOf .storing inOrderEnv.toEnv fileOfA)).out ++
      (finalState (compFileOf .storing inOrderEnv.toEnv fileOfA)).out).length <
        2 ^ 63 := by
    rw [List.length_append, hlen]
    decide
  exact ⟨⟨_, hbound⟩,
    uncompFile_append .storing storing_undoes fileOfA fileOfA ⟨_, hbound⟩
    (by decide) (by decide) inOrderEnv.toEnv inOrderEnv.toEnv hcode hcode rfl inOrderEnv⟩

section CipherText

variable {key : Key} {avars : EncAesVars} {env : Env} {x y y' : FileData}

/-- The beginning of a ciphertext decrypts to a beginning of the plain text. -/
theorem decFileOf_cut (h : some y.bytes = cipherText key x.bytes)
    (hcut : y'.bytes <+: y.bytes)
    (hcode : exitCode (decFileOf env y' key) = some 0) :
    (finalState (decFileOf env y' key)).out <+: x.bytes := by
  obtain ⟨avars, havars, _⟩ := encAesVars_inverse key
  by_cases hall : y'.bytes = y.bytes
  · rcases decFileOf_cipherText (hall ▸ h) hcode with hout | ⟨_, hnil⟩
    · rw [hout]
    · rw [hnil]
      exact List.nil_prefix
  rcases decFileOf_zero havars hcode with ⟨⟨_, hwhole, _⟩, hout⟩ | ⟨_, hnil⟩
  · have hlen : y.size = 16 * (x.size / 16 + 1) := length_cipherText h
    have hplain := decryptBlocks_cipherText havars h
    obtain ⟨more, hmore⟩ := hcut
    have hdvd : 16 ∣ y'.bytes.length := Nat.dvd_of_mod_eq_zero hwhole
    have hne : more ≠ [] := by
      rintro rfl
      exact hall ((List.append_nil _).symm.trans hmore)
    have hpos := List.length_pos_iff.mpr hne
    have hsum : y.size = y'.size + more.length := by
      rw [FileData.size, ← hmore, List.length_append, FileData.size]
    have hdecrypted : (decryptBlocks avars y'.bytes).length = 16 * (y'.size / 16) :=
      length_mapBlocks (fun b _ => length_decryptBytes avars b) _
    have hle : (decryptBlocks avars y'.bytes).length ≤ x.bytes.length := by
      have hx : x.size = x.bytes.length := rfl
      omega
    rw [← hmore, decryptBlocks, mapBlocks_append (by decide) _ hdvd] at hplain
    have hbegins := List.prefix_of_prefix_length_le ⟨_, hplain⟩
      (List.prefix_append x.bytes (padding x.bytes.length)) hle
    rw [hout]
    exact List.IsPrefix.trans ⟨_, List.take_append_drop _ _⟩ hbegins
  · rw [hnil]
    exact List.nil_prefix

end CipherText

end EcFtp
