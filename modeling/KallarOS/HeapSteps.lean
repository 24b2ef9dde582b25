import KallarOS.HeapShape

namespace KallarOS.Heap
open ByteMemory Chains Tilings Function

theorem fits_of_request {a n : ℕ} (hn : 0 < n) (hlt : n + 23 + 4095 < 2 ^ 32) :
    Fits ⟨a, realSize n, some n⟩ := by
  rintro m hm
  cases hm
  exact ⟨hn, hlt, realSize_eq (by omega)⟩

theorem fits_free {a s : ℕ} : Fits ⟨a, s, none⟩ := fun _ hn => nomatch hn

namespace Shape

variable {h h' : HeapState} {start a s s' n : ℕ} {us vs : List Block}

theorem header_free (hs : Shape h start (us ++ ⟨a, s, none⟩ :: vs)) : h.sizeAndFlags a = s + 1 :=
  hs.header ⟨a, s, none⟩ (by simp)

/-- First fit with room to spare: the block is split. -/
theorem split (hs : Shape h start (us ++ ⟨a, s, none⟩ :: vs)) (hn : 0 < n)
    (hlt : n + 23 + 4095 < 2 ^ 32) (hfit : realSize n + 16 ≤ s) :
    Shape (takeBlock h a ((freeAddrs us).getLastD 0) (realSize n)) start
      (us ++ ⟨a, realSize n, some n⟩ :: ⟨a + realSize n, s - realSize n, none⟩ :: vs) := by
  obtain ⟨ha, -, hdvd, hend, -, hus, hvs⟩ := hs.cut
  have hr := dvd_realSize n
  have hpos : 0 < realSize n := realSize_pos (by omega)
  simp only at ha hdvd hend hus hvs
  obtain ⟨h', he, ed⟩ := takeBlock_split ((freeAddrs us).getLastD 0) ha hr hdvd
    hs.header_free hfit hend
  obtain ⟨c, -, hc, hq⟩ := hs.paths
  rw [he]
  refine hs.replace [_] [⟨a, realSize n, some n⟩, ⟨a + realSize n, s - realSize n, none⟩]
    hus hvs ed (fun x hx => ?_) ?_ (fun x hx => ?_) (fun x hx => ?_) hq ?_
  · rw [update_of_ne (by omega), update_of_ne (by omega), update_of_ne (by omega)]
    exact ⟨rfl, rfl⟩
  · exact ⟨rfl, hpos, hr, rfl, by simp only; omega, by simp only; omega, by simp only [tiles_nil]; omega⟩
  · rcases List.mem_pair.mp hx with rfl | rfl
    · rw [update_self]
      rfl
    · rw [update_of_ne (by simp only; omega), update_self]
      rfl
  · rcases List.mem_pair.mp hx with rfl | rfl
    · exact fits_of_request hn hlt
    · exact fits_free
  · exact ⟨rfl, by rw [update_self]; rfl⟩

/-- First fit without room for another header: the block goes as a whole. -/
theorem whole (hs : Shape h start (us ++ ⟨a, realSize n, none⟩ :: vs)) (hn : 0 < n)
    (hlt : n + 23 + 4095 < 2 ^ 32) :
    Shape (takeBlock h a ((freeAddrs us).getLastD 0) (realSize n)) start
      (us ++ ⟨a, realSize n, some n⟩ :: vs) := by
  obtain ⟨ha, hpos, hdvd, hend, -, hus, hvs⟩ := hs.cut
  simp only at ha hpos hdvd hend hus hvs
  obtain ⟨h', he, ed⟩ := takeBlock_whole ((freeAddrs us).getLastD 0) ha hdvd
    hs.header_free (by omega)
  obtain ⟨c, -, hc, hq⟩ := hs.paths
  rw [he]
  refine hs.replace [_] [⟨a, realSize n, some n⟩]
    hus hvs ed (fun x hx => ?_) ⟨rfl, hpos, hdvd, rfl⟩ (fun x hx => ?_) (fun x hx => ?_) hq rfl
  · rw [update_of_ne (by omega)]
    exact ⟨rfl, rfl⟩
  · rw [List.mem_singleton.mp hx, update_self]
    rfl
  · rw [List.mem_singleton.mp hx]
    exact fits_of_request hn hlt

/-- A live block enters the free list between its free neighbours in the list. -/
theorem insert (hs : Shape h start (us ++ ⟨a, s, some n⟩ :: vs)) :
    Shape (((h.setSizeAndFlags a (s + 1)).setNextFreeSlot a ((freeAddrs vs).headD 0)).relink
      ((freeAddrs us).getLastD 0) a) start (us ++ ⟨a, s, none⟩ :: vs) := by
  obtain ⟨ha, hpos, hdvd, hend, -, hus, hvs⟩ := hs.cut
  simp only at ha hpos hdvd hend hus hvs
  obtain ⟨c, -, hq⟩ := hs.paths
  obtain rfl : c = (freeAddrs vs).headD 0 := path_head hq
  have hclt : (freeAddrs vs).headD 0 < 2 ^ 32 := by
    cases hf : freeAddrs vs with
    | nil => decide
    | cons x xs => exact hs.slots.lt x (by simp [hf])
  have ed := ((Edited.refl h).setSize ha (v := s + 1) (by omega)).setNext ha hclt
  refine hs.replace [_] [⟨a, s, none⟩]
    hus hvs ed (fun x hx => ?_) ⟨rfl, hpos, hdvd, rfl⟩ (fun x hx => ?_) (fun x hx => ?_) hq ?_
  · rw [update_of_ne (by omega), update_of_ne (by omega)]
    exact ⟨rfl, rfl⟩
  · rw [List.mem_singleton.mp hx, update_self]
    rfl
  · rw [List.mem_singleton.mp hx]
    exact fits_free
  · exact ⟨rfl, update_self ..⟩

/-- Two free neighbours become one block. -/
theorem merge (hs : Shape h start (us ++ ⟨a, s, none⟩ :: ⟨a + s, s', none⟩ :: vs)) :
    Shape (absorb h a (a + s)) start (us ++ ⟨a, s + s', none⟩ :: vs) := by
  obtain ⟨ha, hpos, hdvd, hend, -, hus, -, hpos', hdvd', hvs⟩ := hs.cut
  have hsecond : h.sizeAndFlags (a + s) = s' + 1 := hs.header ⟨a + s, s', none⟩ (by simp)
  simp only at ha hpos hdvd hend hus hvs hpos' hdvd'
  have hwm := hs.watermark_lt
  have hle := hvs.le
  have hsum : add32 (h.sizeAndFlags a) (clearFlag (h.sizeAndFlags (a + s))) = s + s' + 1 := by
    rw [hs.header_free, hsecond, clearFlag_succ (by omega), add32_of_lt (by omega)]
    omega
  have ed := absorb_edited (h := h) ha (ha.add hdvd)
  rw [hsum] at ed
  refine hs.edit (ed.watermark ▸ hwm) (ed.watermark ▸ hs.watermark_aligned) ?_ (fun x hx => ?_)
    (fun x hx => ?_) ed.head (fun x hx => ?_) (fun c hc => ?_) fun x hx => ?_
  · rw [ed.watermark, tiles_append]
    exact ⟨a, hus, rfl, by simp only; omega, hdvd.add hdvd', by simpa only [Nat.add_assoc] using hvs⟩
  · have hx' := hs.us_lt hx
    simp only at hx'
    rw [ed.size _ hx'.2, update_of_ne (by omega)]
  · rcases List.mem_cons.mp hx with rfl | hx
    · rw [ed.size _ ha, update_self]
      rfl
    · have hx' := hs.vs_ge (List.mem_cons_of_mem _ hx)
      simp only at hx'
      rw [ed.size _ hx'.2, update_of_ne (by omega)]
      exact hs.header x (by simp [hx])
  · have hx' := hs.mem_freeAddrs_lt hx
    simp only at hx'
    rw [ed.next _ hx'.2, update_of_ne (by omega)]
  · rw [freeAddrs_free, freeAddrs_free, path_cons, path_cons] at hc
    obtain ⟨rfl, -, hq⟩ := hc
    rw [freeAddrs_free, path_cons, ed.next _ ha, update_self]
    refine ⟨rfl, ?_⟩
    refine (path_congr fun x hx => ?_).mpr hq
    have hx' := hs.mem_freeAddrs_ge (x := x) (by simp [hx])
    simp only at hx'
    rw [ed.next _ hx'.2, update_of_ne (by omega)]
  · rcases List.mem_cons.mp hx with rfl | hx
    · exact fits_free
    · exact hs.fits x (by simp [hx])

end Shape

end KallarOS.Heap
