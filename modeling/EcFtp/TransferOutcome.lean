/-
How a transfer ends, whichever way the steps of the two hosts interleave and
however the reads split the bytes of the data connection: when the file could be
prepared, in one state; and exactly for files of certain sizes with the file
delivered.
-/
import EcFtp.DuplexOutcome
import EcFtp.Transfer

namespace EcFtp

open ByteStrings Duplex Exec

namespace Session

variable (t : Session) (lzma : Lzma)

/-- The key both sides derive. -/
def key : Key := agreedKey t.senderDraws.exponents t.receiverDraws.exponents

/-- What the receiving side returns once it has received `bs`. -/
def received (bs : Bytes) : EStateM.Result Exit FileSystem PUnit :=
  match tempRecvName t.dest t.recvDigits t.receiverFs with
  | .error e fs => .error e fs
  | .ok recvFp fs =>
      processReceivedFile lzma t.receiverEnv t.dest recvFp t.key
        (fs.write recvFp (.clip bs))

/-- What the sending side still has to do once it has the key. -/
def senderRest : Proc Byte (EStateM.Result Exit FileSystem Path) :=
  match prepareFile lzma t.senderEnv t.source t.key t.senderFs with
  | .error e fs => .done (.error e fs)
  | .ok preparedFp fs => (sendFile t.role ((fs.content preparedFp).getD [])).bind fun _ =>
      .done (.ok preparedFp fs)

/-- What the receiving side still has to do once it has the key. -/
def receiverRest : Proc Byte (EStateM.Result Exit FileSystem PUnit) :=
  match tempRecvName t.dest t.recvDigits t.receiverFs with
  | .error e fs => .done (.error e fs)
  | .ok recvFp fs => receiveFile.bind fun bs =>
      .done (processReceivedFile lzma t.receiverEnv t.dest recvFp t.key
        (fs.write recvFp (.clip bs)))

end Session

section Runs

variable {α γ : Type} {bs : Bytes}

/-- The two sides reach the same key, whichever of them is the client. -/
theorem doDh_runs_role (a b : Draws) (role : DhRole) :
    Net.Runs (.start (doDh a role) (doDh b role.other))
      (.start (.done (agreedKey a.exponents b.exponents))
        (.done (agreedKey a.exponents b.exponents))) := by
  cases role with
  | client => exact doDh_runs a b
  | server =>
      rw [agreedKey_comm a.exponents b.exponents]
      exact (doDh_runs b a).swap

/-- The sender needs nobody to send its file. -/
theorem sendFile_runs_alone (role : DhRole) (bs : Bytes) (a : α) (q : Proc Byte γ) :
    Net.Runs (.start ((sendFile role bs).bind fun _ => .done a) q)
      ⟨.done a, q, ⟨bs, true, false⟩, .empty⟩ := by
  have hpos : 0 < blockSize role := by cases role <;> decide
  have hsend := sendBlocks_runs (Nat.le_refl bs.length) hpos
    (fun _ => .close (.done a)) q [] .empty
  have hassoc : (sendFile role bs).bind (fun _ => Proc.done a) =
      (sendBlocks (blockSize role) bs.length bs).bind fun _ => .close (.done a) := by
    rw [sendFile, Proc.bind_assoc]
    rfl
  rw [hassoc]
  exact hsend.trans (.single (.left .close))

/-- What was sent and closed can be received to its end. -/
theorem receiveFile_runs (a : α) (bs : Bytes) (l : Bytes → γ) :
    Net.Runs ⟨.done a, receiveFile.bind fun got => .done (l got),
      ⟨bs, true, false⟩, .empty⟩
      ⟨.done a, .done (l bs), ⟨[], true, true⟩, .empty⟩ := by
  by_cases hne : bs = []
  · subst hne
    exact .single (.right (.finish rfl rfl))
  · exact .head (.right (.collect hne (List.append_nil bs).symm))
      (.single (.right (.finish rfl rfl)))

end Runs

section Outcome

variable {lzma : Lzma} {t : Session} {preparedFp : Path} {fs : FileSystem}

/-- A run through the key agreement. -/
theorem Session.runs_behind_dh (t : Session) (lzma : Lzma) :
    Net.Runs (t.start lzma) (.start (t.senderRest lzma) (t.receiverRest lzma)) := by
  have hdh := (doDh_runs_role t.senderDraws t.receiverDraws t.role).andThen
    (fun key => match prepareFile lzma t.senderEnv t.source key t.senderFs with
      | .error e fs =>
          (pure (.error e fs) : Proc Byte (EStateM.Result Exit FileSystem Path))
      | .ok preparedFp fs => do
          sendFile t.role ((fs.content preparedFp).getD [])
          pure (.ok preparedFp fs))
    (fun key => match tempRecvName t.dest t.recvDigits t.receiverFs with
      | .error e fs =>
          (pure (.error e fs) : Proc Byte (EStateM.Result Exit FileSystem PUnit))
      | .ok recvFp fs => do
          let bs ← receiveFile
          pure (processReceivedFile lzma t.receiverEnv t.dest recvFp key
            (fs.write recvFp (.clip bs))))
  exact hdh

/-- One run to the end. -/
theorem Session.runs_of_prepared
    (hprepare :
      prepareFile lzma t.senderEnv t.source t.key t.senderFs = .ok preparedFp fs) :
    ∃ s, Net.Runs (t.start lzma) s ∧ s.left = .done (.ok preparedFp fs) ∧
      s.right = .done (t.received lzma ((fs.content preparedFp).getD [])) := by
  have hstart := t.runs_behind_dh lzma
  have hsend := sendFile_runs_alone t.role ((fs.content preparedFp).getD [])
    (EStateM.Result.ok preparedFp fs : EStateM.Result Exit FileSystem Path)
    (t.receiverRest lzma)
  unfold Session.senderRest at hstart
  rw [hprepare] at hstart
  unfold Session.received
  unfold Session.receiverRest at hstart hsend
  cases hname : tempRecvName t.dest t.recvDigits t.receiverFs with
  | error e fs' =>
      rw [hname] at hstart hsend
      exact ⟨_, hstart.trans hsend, rfl, rfl⟩
  | ok recvFp fs' =>
      rw [hname] at hstart hsend
      exact ⟨_, (hstart.trans hsend).trans (receiveFile_runs _ _ _), rfl, rfl⟩

/-- When the file could be prepared, no order of the steps and no splitting of the
bytes keeps a transfer from ending, or makes it end in any other way: with the
prepared file sent, and the receiving side's result for its bytes. -/
theorem transfer_outcome (lzma : Lzma) (t : Session) (preparedFp : Path) (fs : FileSystem)
    (hprepare :
      prepareFile lzma t.senderEnv t.source t.key t.senderFs = .ok preparedFp fs) :
    (∀ s, Net.Runs (t.start lzma) s →
      (s.Ended ↔ s.left = .done (.ok preparedFp fs) ∧
        s.right = .done (t.received lzma ((fs.content preparedFp).getD []))) ∧
      ∃ s', Net.Runs s s' ∧ s'.Ended) ∧
    ∀ run : Nat → Net Byte (EStateM.Result Exit FileSystem Path)
        (EStateM.Result Exit FileSystem PUnit),
      run 0 = t.start lzma → ∃ n, ¬ Net.Step (run n) (run (n + 1)) := by
  obtain ⟨f, hruns, hleft, hright⟩ := Session.runs_of_prepared hprepare
  have hend := Net.ended_of_done hleft hright
  refine ⟨fun s hs => ⟨⟨fun hstop => ?_, fun hdone => Net.ended_of_done hdone.1 hdone.2⟩,
    f, hruns.to_end hend hs, hend⟩, fun run _ => ?_⟩
  · obtain rfl : f = s := hstop.eq_of_runs (hruns.to_end hend hs)
    exact ⟨hleft, hright⟩
  · by_contra hforever
    push Not at hforever
    obtain ⟨s, ⟨n, rfl⟩, hleast⟩ :=
      Net.wellFounded_step.has_min (Set.range run) ⟨_, 0, rfl⟩
    exact hleast (run (n + 1)) ⟨n + 1, rfl⟩ (hforever n)

end Outcome

/-- The files a transfer can deliver: those `comp_file` makes a container of, with a
length `enc_file` can encrypt and padding does not take to the end of a chunk. -/
def Transferable (lzma : Lzma) (x : Bytes) : Prop :=
  (x.length / 64000000 + 1) % 2 ^ 32 ≠ 0 ∧ LastReads compPlan x.length ∧
    ∃ n, containerSize lzma x = some n ∧ n / 16777216 + 1 < 2 ^ 32 ∧
      n % 4194304 ≠ 0 ∧ n % 4194304 < 4194304 - 16

/-- The digits give a name no file has. -/
def Free (fs : FileSystem) (template : Path) (digits : Digits) : Prop :=
  ∃ d, digits = some d ∧ fs (template ++ d) = none

/-- On neither host does a library call fail, and every temporary name is free. -/
structure Session.Clear (t : Session) : Prop where
  comp : ∃ env : ReliableEnv, t.senderEnv.comp = env.toEnv
  enc : ∃ env : ReliableEnv, t.senderEnv.enc = env.toEnv
  dec : ∃ env : ReliableEnv, t.receiverEnv.dec = env.toEnv
  uncomp : ∃ env : ReliableEnv, t.receiverEnv.uncomp = env.toEnv
  compName : Free t.senderFs (compressionName t.source ++ "-") t.senderEnv.compDigits
  encName :
    Free t.senderFs (compressionName t.source ++ ".enc" ++ "-") t.senderEnv.encDigits
  recvName : Free t.receiverFs (compressionName t.dest ++ ".enc" ++ "-") t.recvDigits
  decName : Free t.receiverFs (compressionName t.dest ++ "-") t.receiverEnv.decDigits

/-- Both sides have returned zero, and the file is where it should be. -/
def Session.DeliveredAt (t : Session) (x : FileData)
    (s : Net Byte (EStateM.Result Exit FileSystem Path)
      (EStateM.Result Exit FileSystem PUnit)) :
    Prop :=
  ∃ preparedFp fs fs', s.left = .done (.ok preparedFp fs) ∧ s.right = .done (.ok ⟨⟩ fs') ∧
    t.Delivered x preparedFp fs fs'

section Delivery

variable {lzma : Lzma} {t : Session} {x c e d : FileData} {env₁ env₂ env₃ env₄ : Env}
  {key : Key} {preparedFp : Path} {fs fs' : FileSystem}

/-- The two temporary names of a file differ behind its extension. -/
theorem compName_ne_encName (filename d d' : Path) :
    compressionName filename ++ "-" ++ d ≠
      compressionName filename ++ ".enc" ++ "-" ++ d' := by
  intro heq
  have hlist := congrArg String.toList heq
  simp only [String.toList_append, List.append_assoc, List.append_cancel_left_eq] at hlist
  cases hlist

/-- A file that can be transferred goes through all four functions with return code
zero. -/
theorem Transferable.chain (hundoes : lzma.Undoes) (h : Transferable lzma x.bytes)
    (key : Key)
    (env₁ env₂ env₃ env₄ : ReliableEnv) : ∃ c e d : FileData,
      (exitCode (compFileOf lzma env₁.toEnv x) = some 0 ∧
        c.bytes = (finalState (compFileOf lzma env₁.toEnv x)).out) ∧
      (exitCode (encFileOf env₂.toEnv c key) = some 0 ∧
        e.bytes = (finalState (encFileOf env₂.toEnv c key)).out) ∧
      (exitCode (decFileOf env₃.toEnv e key) = some 0 ∧
        d.bytes = (finalState (decFileOf env₃.toEnv e key)).out) ∧
      exitCode (uncompFileOf lzma env₄.toEnv d) = some 0 ∧
        x.bytes = (finalState (uncompFileOf lzma env₄.toEnv d)).out := by
  obtain ⟨hnb, hreads, n, hsize, hfit, hpos, hroom⟩ := h
  obtain ⟨sizes, hsizes, _⟩ := Option.map_eq_some_iff.mp hsize
  obtain ⟨hcomp, hholds⟩ :=
    compFileOf_reliable (not_rejects_of_mapM hsizes) env₁ hnb hreads
  have hlen := Option.some.inj (hholds.mapM_storedSize.symm.trans hsize)
  have hdesc := hholds.describes hnb hreads
  obtain ⟨c, hc⟩ :
    ∃ c : FileData, c.bytes = (finalState (compFileOf lzma env₁.toEnv x)).out :=
    ⟨⟨(finalState (compFileOf lzma env₁.toEnv x)).out, by omega⟩, rfl⟩
  have hn : c.size = n := (congrArg List.length hc).trans hlen
  rw [← hc] at hdesc
  obtain ⟨henc, hcipher⟩ :=
    encFileOf_reliable (x := c) env₂ key (by rwa [hn]) (by rwa [hn])
  have hcipherLen : (finalState (encFileOf env₂.toEnv c key)).out.length =
      16 * (c.size / 16 + 1) := length_cipherText hcipher
  obtain ⟨e, he⟩ :
    ∃ e : FileData, e.bytes = (finalState (encFileOf env₂.toEnv c key)).out :=
    ⟨⟨(finalState (encFileOf env₂.toEnv c key)).out, by omega⟩, rfl⟩
  rw [← he] at hcipher
  have hdec := decFileOf_cipherText_accepts env₃ hcipher (by rwa [hn]) (by rwa [hn])
    (by rwa [hn])
  have hkept : ¬ PadsToNoBatch c.size := by
    unfold PadsToNoBatch
    omega
  have hsame := encFileOf_decFileOf_kept hkept henc he hdec
  obtain ⟨huncomp, hplain⟩ := uncompFileOf_describes hundoes hdesc env₄
  exact ⟨c, e, c, ⟨hcomp, hc⟩, ⟨henc, he⟩, ⟨hdec, hsame.symm⟩, huncomp, hplain.symm⟩

/-- Nothing else comes out of all four functions as it went in. -/
theorem transferable_of_chain
    (hcomp : exitCode (compFileOf lzma env₁ x) = some 0)
    (hc : c.bytes = (finalState (compFileOf lzma env₁ x)).out)
    (henc : exitCode (encFileOf env₂ c key) = some 0)
    (he : e.bytes = (finalState (encFileOf env₂ c key)).out)
    (hdec : exitCode (decFileOf env₃ e key) = some 0)
    (hd : d.bytes = (finalState (decFileOf env₃ e key)).out)
    (hx : x.bytes = (finalState (uncompFileOf lzma env₄ d)).out)
    (huncomp : exitCode (uncompFileOf lzma env₄ d) = some 0) :
    Transferable lzma x.bytes := by
  rcases compFileOf_zero hcomp with ⟨hnb, hreads, hholds⟩ | ⟨_, hnil⟩
  · rw [← hc] at hholds
    refine ⟨hnb, hreads, c.size, hholds.mapM_storedSize, ?_⟩
    rcases encFileOf_zero henc with ⟨hpos, hfit, hcipher⟩ | ⟨_, hnil⟩
    · refine ⟨hfit, hpos, ?_⟩
      rw [← he] at hcipher
      obtain ⟨avars, havars, _⟩ := encAesVars_inverse key
      have hlen : e.size = 16 * (c.size / 16 + 1) := length_cipherText hcipher
      rcases decFileOf_zero havars hdec with ⟨⟨_, _, hpad⟩, _⟩ | ⟨_, hnil⟩
      · omega
      · have hempty : x.bytes = [] := by
          rw [hx, (uncompFileOf_zero huncomp).2, hd, hnil]
          rfl
        have hzero : x.size = 0 := by rw [FileData.size, hempty, List.length_nil]
        rcases hreads with hmod | hbig
        · rw [hzero] at hmod
          exact absurd rfl hmod
        · rw [hzero] at hbig
          exact absurd hbig (by decide)
    · exact absurd hdec (decFileOf_empty (he.trans hnil))
  · exact absurd (hc.trans hnil) (encFileOf_ne_nil henc)

/-- On hosts where nothing fails, both functions return zero on such a file. -/
theorem Session.Clear.results (h : t.Clear) (hundoes : lzma.Undoes)
    (hsource : t.senderFs t.source = some x) (hx : Transferable lzma x.bytes) :
    ∃ preparedFp e,
      prepareFile lzma t.senderEnv t.source t.key t.senderFs =
        .ok preparedFp (t.senderFs.write preparedFp e) ∧
      t.senderFs preparedFp = none ∧
      t.received lzma e.bytes = .ok ⟨⟩ (t.receiverFs.write t.dest x) := by
  obtain ⟨env₁, hcompEnv⟩ := h.comp
  obtain ⟨env₂, hencEnv⟩ := h.enc
  obtain ⟨env₃, hdecEnv⟩ := h.dec
  obtain ⟨env₄, huncompEnv⟩ := h.uncomp
  obtain ⟨compDigits, hcompDigits, hcompFree⟩ := h.compName
  obtain ⟨encDigits, hencDigits, hencFree⟩ := h.encName
  obtain ⟨recvDigits, hrecvDigits, hrecvFree⟩ := h.recvName
  obtain ⟨decDigits, hdecDigits, hdecFree⟩ := h.decName
  obtain ⟨c, e, d, ⟨hcomp, hc⟩, ⟨henc, he⟩, ⟨hdec, hd⟩, huncomp, hplain⟩ :=
    hx.chain hundoes t.key env₁ env₂ env₃ env₄
  have hencName := compName_ne_encName t.source compDigits encDigits
  have hdecName := compName_ne_encName t.dest decDigits recvDigits
  have hprepare := prepareFile_of hsource (mkstemp_of_free hcompDigits hcompFree)
    (mkstemp_of_free hencDigits ((FileSystem.write_of_ne hencName.symm).trans hencFree))
    (hcompEnv ▸ hcomp) (hcompEnv ▸ hc) (hencEnv ▸ henc) (hencEnv ▸ he)
  have hdecFree' :
      (t.receiverFs.write (compressionName t.dest ++ ".enc" ++ "-" ++ recvDigits) e)
      (compressionName t.dest ++ "-" ++ decDigits) = none :=
    (FileSystem.write_of_ne hdecName).trans hdecFree
  have hprocess := @processReceivedFile_of lzma t.key
    (t.receiverFs.write (compressionName t.dest ++ ".enc" ++ "-" ++ recvDigits) e)
    t.dest _ e t.receiverEnv d x _ FileSystem.write_self
    (mkstemp_of_free hdecDigits hdecFree')
    (hdecEnv ▸ hdec) (hdecEnv ▸ hd) (huncompEnv ▸ huncomp) (huncompEnv ▸ hplain)
  refine ⟨_, e, hprepare, hencFree, ?_⟩
  have hname : tempRecvName t.dest t.recvDigits t.receiverFs = .ok _ t.receiverFs :=
    mkstemp_of_free hrecvDigits hrecvFree
  rw [Session.received, hname]
  dsimp only
  rw [e.clip_of_bytes, hprocess, FileSystem.delete_write hrecvFree]

/-- A session that delivers a file has one that can be transferred. -/
theorem Session.transferable_of_delivered
    (hsource : t.senderFs t.source = some x)
    (hends : t.EndsWith lzma preparedFp fs fs')
    (hdelivered : t.Delivered x preparedFp fs fs') :
    Transferable lzma x.bytes := by
  obtain ⟨key, recvFp, hprepare, hfree, hprocess⟩ := Session.endsWith_inv hends
  obtain ⟨hfresh, c, e, hcomp, hc, henc, he, rfl⟩ := prepareFile_ok hsource hprepare
  have hreceived : FileData.clip
      (((t.senderFs.write preparedFp e).content preparedFp).getD []) = e := by
    rw [content_of_some FileSystem.write_self]
    exact e.clip_of_bytes
  rw [hreceived] at hprocess
  obtain ⟨d, y, hdec, hd, huncomp, hy, rfl⟩ :=
    processReceivedFile_ok FileSystem.write_self hprocess
  have hsame : some y = some x := FileSystem.write_self.symm.trans hdelivered.1
  obtain rfl : y = x := Option.some.inj hsame
  exact transferable_of_chain hcomp hc henc he hdec hd hy huncomp

end Delivery

/-- On hosts where nothing fails, every run of a transfer can be continued to the
delivery of the file, exactly when the file can be transferred. -/
theorem transfer_delivers_iff (lzma : Lzma) (hundoes : lzma.Undoes) (t : Session)
    (hclear : t.Clear) (x : FileData) (hsource : t.senderFs t.source = some x) :
    (∀ s, Net.Runs (t.start lzma) s → ∃ s', Net.Runs s s' ∧
      s'.Ended ∧ t.DeliveredAt x s') ↔
      Transferable lzma x.bytes := by
  constructor
  · intro hall
    obtain ⟨s, hruns, _, preparedFp, fs, fs', hleft, hright, hdelivered⟩ := hall _ .refl
    exact Session.transferable_of_delivered hsource ⟨s, hruns, hleft, hright⟩ hdelivered
  · intro hx s hs
    obtain ⟨preparedFp, e, hprepare, hfresh, hreceived⟩ :=
      hclear.results hundoes hsource hx
    obtain ⟨f, hruns, hleft, hright⟩ := Session.runs_of_prepared hprepare
    rw [content_of_some FileSystem.write_self, Option.getD_some, hreceived] at hright
    have hend := Net.ended_of_done hleft hright
    refine ⟨f, hruns.to_end hend hs, hend, _, _, _, hleft, hright, FileSystem.write_self,
      ?_, ?_, hfresh, fun fp hfp => FileSystem.write_of_ne hfp,
      fun fp hfp => FileSystem.write_of_ne hfp⟩
    · have hne : t.source ≠ preparedFp := by
        intro heq
        rw [← heq, hsource] at hfresh
        cases hfresh
      exact (FileSystem.write_of_ne hne).trans hsource
    · rw [FileSystem.write_self]
      rfl

theorem putSession_free (x : FileData) {template : Path}
    (h : template ++ "aaaaaa" ≠ "f") :
    Free (putSession x).senderFs template (some "aaaaaa") := by
  refine ⟨"aaaaaa", rfl, ?_⟩
  rw [putSession_senderFs]
  exact FileSystem.write_of_ne h

theorem putSession_clear (x : FileData) : (putSession x).Clear where
  comp := ⟨inOrderEnv, rfl⟩
  enc := ⟨inOrderEnv, rfl⟩
  dec := ⟨inOrderEnv, rfl⟩
  uncomp := ⟨inOrderEnv, rfl⟩
  compName := @putSession_free x ("f" ++ ".comp" ++ "-") (by decide)
  encName := @putSession_free x ("f" ++ ".comp" ++ ".enc" ++ "-") (by decide)
  recvName := ⟨"aaaaaa", rfl, rfl⟩
  decName := ⟨"aaaaaa", rfl, rfl⟩

theorem fileOfA_transferable : Transferable .storing fileOfA.bytes :=
  ⟨by decide, .inl (by decide), 18, by decide, by decide, by decide, by decide⟩

theorem putSession_source (x : FileData) :
    (putSession x).senderFs (putSession x).source = some x := by
  rw [putSession_senderFs]
  exact FileSystem.write_self

theorem transfer_delivers_a :
    (∀ s, Net.Runs ((putSession fileOfA).start .storing) s →
      ∃ s', Net.Runs s s' ∧ s'.Ended ∧ (putSession fileOfA).DeliveredAt fileOfA s') ↔
      Transferable .storing fileOfA.bytes :=
  transfer_delivers_iff .storing storing_undoes (putSession fileOfA)
    (putSession_clear fileOfA)
    fileOfA (putSession_source fileOfA)

theorem transfer_outcome_a : ∃ preparedFp fs,
    (∀ s, Net.Runs ((putSession fileOfA).start .storing) s →
      (s.Ended ↔ s.left = .done (.ok preparedFp fs) ∧ s.right =
        .done
          ((putSession fileOfA).received .storing ((fs.content preparedFp).getD []))) ∧
      ∃ s', Net.Runs s s' ∧ s'.Ended) ∧
    ∀ run : Nat → Net Byte (EStateM.Result Exit FileSystem Path)
        (EStateM.Result Exit FileSystem PUnit),
      run 0 = (putSession fileOfA).start .storing →
        ∃ n, ¬ Net.Step (run n) (run (n + 1)) := by
  obtain ⟨preparedFp, e, hprepare, _⟩ := (putSession_clear fileOfA).results storing_undoes
    (putSession_source fileOfA) fileOfA_transferable
  exact ⟨_, _, transfer_outcome .storing (putSession fileOfA) preparedFp _ hprepare⟩

end EcFtp
