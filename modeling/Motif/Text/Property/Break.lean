import Motif.Text.Property.Named

/-!
# Breaks

The classes of characters that tell where clusters of characters, words and sentences end. They are
close to categories and binary properties.
-/

namespace Motif.Text.Property

def clusterBreaks : List Named := Named.table
  "cr = NA;
  cn control = cf pcm cc = KACAitSB0BbXAcjdWIbjaf9ABhBgYdv9;
  ex extend = grext = fgtPE;
  l = eq6cXbpo62;
  lf = KA;
  lv = bvbEA1AAlA;
  lvt = bvbF0B0AlA;
  pp prepend = pcm = dqWActgDBoVAbmVABAg6AcBFtQAmLA;
  ri regionalindicator = fgeWZ;
  sm spacingmark = mc ogrext = dw9AdTAkPBLAbFCCGVADFCAKCcrQABBboHAblwOABAxhMBglEBbityGcX;
  t = evUcPcccTbM;
  v = etUb9cceIWbox6ADD;
  zwj = it7A"

def wordBreaks : List Named := Named.table
  "le aletter = ids ideo oids = tWDMFGBFGBABQq0CBAbHAb70EEcfJbLBBMGbWBBABEBXBABJBBJACEBAVDiAbGUAQFED
  DADBHCEMMAbxNbP9AEAkL3CELbHEZcObQcKActSbPcn7AoJELcNGCBcRBDgYPbgaIOJBc5BqVEBJKEcZWDADbNBADBCECABAYC
  dRAvvFABJBMBEBABBBBBJbdCbVgkI0bBGygFArnPDBGBBBiCPA3CCAODrlUZGZGZ;
  cr = NA;
  dq doublequote = 8A;
  extend = m = it6Acjd3BcovXEbglnUcX;
  ex extendnumlet = pc = iu5A;
  fo format = cf = it5CbljnGcX;
  hl hebrewletter = bpM0EDcpbOABJBMBEBABBBBBJ;
  ka katakana = neZEc3BDcSBDgYPf2bKBcPcdvCbTbwf4DBGBBBAh9CbOAOD;
  lf = KA;
  ml midletter = bWAdQAt9AnDAeEAheKAcisDAb3AfQA;
  mn midnum = bIAOAxGAoSAdWBcWAk9Agq1AcirHADAbXADAfDAOA;
  mb midnumlet = bKAis7BKAcit7AfAAGA;
  nl newline = LBdMAiq8B;
  nu numeric = nd = btXA;
  ri regionalindicator = fgeWZ;
  sq singlequote = bDA;
  wsegspace = zs = eQAipKAbDA;
  zwj = it7A"

def sentenceBreaks : List Named := Named.table
  "at aterm = bKAitJAcit7AfHA;
  cr = NA;
  cl close = qmark = bEBbNABA3ABAea2DcaNBcqYBbSBOBrVD3Bbd2FHNcHB5JlHVb1D6BbcSNOBCJbHHl5DEBCHcec0Bf9B
  2LGBQFeTAECbNABA3ABABBcppBC;
  ex extend = m = it6Bcjd2BbjajMcX;
  fo format = cf = it6BbljnGcX;
  lf = KA;
  lo lower = lower = xJAdsKbGCC;
  nu numeric = nd = btXB;
  le oletter = lo lm olower nl = xJAtBAczIbGCCdeIbGCCbg6PyAZchvIB;
  sc scontinue = bIBMAbkSAe4BnWAekBAFAcfGBejIAcejKBBA3B3BDACAKAeYBMAcBA;
  st sterm = sterm = bKAgmFBchCAdnICcfe4ACBbXAfHA;
  se sep = dZAiq8B;
  sp = zs = JABB;
  up upper = upper lt = hvEbGCC"

end Motif.Text.Property
