import LinuxApi.Http.EpollSend

/-!
# When the epoll server delivers a file

`send_file` reads a block, passes it to `send` and goes on to the next block whatever `send` has
taken of it. So the client gets the file exactly if every call takes its whole block
(`file_sent_iff`).
-/

set_option autoImplicit false

namespace EpollHttp

open CLib Http Socket

theorem sendFile_flatten {fs : Fs} {path content : Bytes} (h : fs.openRead path = some content) :
    (sendFile fs path).flatten = content := by
  rw [sendFile, h]
  exact blocks_flatten (by decide) content

theorem httpGetRequest_reg {fs : Fs} {line : Bytes} {size : Nat}
    (h : fs.stat (requestPath line) = some ⟨.reg, size⟩) :
    httpGetRequest fs line =
      sendResponseHead 200 (ascii "OK") (getFileType (requestPath line)) size ++
        sendFile fs (requestPath line) := by
  rw [httpGetRequest, h]

/-- **When a file is delivered whole.** For a request of a regular file the server sends a head
that announces the length of the content, and then, whatever the socket has taken before, the socket
takes the content, no more and no less, exactly if every `send` of `send_file` finds room for its
whole block. -/
theorem file_sent_iff (fs : Fs) (line content : Bytes) (size : Nat)
    (hstat : fs.stat (requestPath line) = some ⟨.reg, size⟩)
    (hopen : fs.openRead (requestPath line) = some content) :
    httpGetRequest fs line =
      sendResponseHead 200 (ascii "OK") (getFileType (requestPath line)) content.length ++
        sendFile fs (requestPath line) ∧
    ∀ (room : Nat → Nat) (o : Out),
      (deliver room o (sendFile fs (requestPath line))).accepted = o.accepted ++ content ↔
        ∀ (i : Nat) (block : Bytes), (sendFile fs (requestPath line))[i]? = some block →
          block.length ≤ room (o.calls + i) := by
  refine ⟨?_, ?_⟩
  · rw [httpGetRequest_reg hstat, fs.size_eq _ size content hstat hopen]
  · intro room o
    rw [← deliver_eq_iff, sendFile_flatten hopen]

/-- A file system with one file, `a`. -/
def oneFile (content : Bytes) : Fs where
  stat path := if path = ascii "a" then some ⟨.reg, content.length⟩ else none
  openRead path := if path = ascii "a" then some content else none
  scandir _ := none
  junk _ := ⟨.other, 0⟩
  size_eq path size content' hs ho := by
    split at hs
    · simp_all
    · cases hs

/-- The request of that file. -/
def getA : Bytes := ascii "GET /a http/1.1"

theorem requestPath_getA : requestPath getA = ascii "a" := by decide +kernel

section
variable (content : Bytes)

theorem oneFile_stat :
    (oneFile content).stat (requestPath getA) = some ⟨.reg, content.length⟩ := by
  rw [requestPath_getA]
  simp [oneFile]

theorem oneFile_open : (oneFile content).openRead (requestPath getA) = some content := by
  rw [requestPath_getA]
  simp [oneFile]

end

theorem sendFile_abc :
    sendFile (oneFile (ascii "abc")) (requestPath getA) = [ascii "abc"] := by
  rw [sendFile, oneFile_open]
  exact blocks_of_le (by decide) (by decide)

/-- A file of 1500 bytes. -/
def twoBlocks : Bytes := List.replicate 1500 97

theorem sendFile_twoBlocks : sendFile (oneFile twoBlocks) (requestPath getA) =
    [List.replicate 1024 97, List.replicate 476 97] := by
  have htake : twoBlocks.take 1024 = List.replicate 1024 97 := List.take_replicate
  have hdrop : twoBlocks.drop 1024 = List.replicate 476 97 := List.drop_replicate
  have hpos : 0 < (twoBlocks.take 1024).length := by
    rw [htake, List.length_replicate]
    decide
  have hrest : blocks 1024 (List.replicate 476 97) = [List.replicate 476 97] := by
    refine blocks_of_le (List.cons_ne_nil _ _) ?_
    rw [List.length_replicate]
    decide
  rw [sendFile, oneFile_open]
  simp only
  rw [blocks, if_pos hpos, htake, hdrop, hrest]

/-- The two blocks of a file, and a socket that has room for each of them. -/
theorem file_sent_room :
    (sendFile (oneFile twoBlocks) (requestPath getA)).length = 2 ∧
    (deliver (fun _ => 1024) ⟨3, []⟩
      (sendFile (oneFile twoBlocks) (requestPath getA))).accepted = twoBlocks := by
  have hopen := oneFile_open twoBlocks
  refine ⟨by rw [sendFile_twoBlocks]; rfl, ?_⟩
  apply ((file_sent_iff _ getA _ _ (oneFile_stat _) hopen).2 (fun _ => 1024) ⟨3, []⟩).2
  intro i block hb
  have hmem := List.mem_of_getElem? hb
  rw [sendFile_twoBlocks, List.mem_cons, List.mem_singleton] at hmem
  rcases hmem with rfl | rfl
  · exact Nat.le_of_eq List.length_replicate
  · rw [List.length_replicate]
    decide

/-- The client reads late: the socket takes two bytes of the block and has room again at once, or
it takes none (`EAGAIN`). The rest of the block is not sent again. -/
theorem file_sent_fails : ¬ ∀ (fs : Fs) (line content : Bytes) (size : Nat),
    fs.stat (requestPath line) = some ⟨.reg, size⟩ →
    fs.openRead (requestPath line) = some content →
    ∀ (room : Nat → Nat) (o : Out),
      (deliver room o (sendFile fs (requestPath line))).accepted = o.accepted ++ content := by
  intro hall
  have hopen := oneFile_open (ascii "abc")
  have h := hall _ getA (ascii "abc") _ (oneFile_stat _) hopen
    (fun i => if i = 3 then 2 else 4096) ⟨3, []⟩
  rw [sendFile_abc] at h
  revert h
  decide

end EpollHttp
